import CodeCensus.Proofs.Layout

/-!
# Reading a drawing back

When functions and counters are shown, a drawing of single lines has all of a tree in it. All marks
have the same width, and what is below a unit begins with other characters than the unit and its
siblings, so the block of a child ends where the next mark begins. In a label, the tag has a fixed
width, and counters are written without blanks, so they are found from the end, whatever the name is.
-/

namespace CodeCensus

/-- What shows everything. -/
def DrawingOptions.all : DrawingOptions := ⟨true, true⟩

/-! ### Labels -/

/-- The last blank of a text splits it for good. -/
theorem append_blank_inj {first second front back : List Char}
    (noBlank : ' ' ∉ front) (noBlankEither : ' ' ∉ back)
    (same : first ++ ' ' :: front = second ++ ' ' :: back) : first = second ∧ front = back := by
  rcases List.append_eq_append_iff.mp same with ⟨middle, rfl, rest⟩ | ⟨middle, rfl, rest⟩
  · cases middle with
    | nil => exact ⟨(List.append_nil _).symm, (List.cons.inj rest).2⟩
    | cons c middle =>
      obtain ⟨-, rfl⟩ := List.cons.inj rest
      simp at noBlank
  · cases middle with
    | nil => exact ⟨List.append_nil _, (List.cons.inj rest).2.symm⟩
    | cons c middle =>
      obtain ⟨-, rfl⟩ := List.cons.inj rest
      simp at noBlankEither

private theorem repr_noBlank (number : Int) : ' ' ∉ number.repr.toList := by
  intro member
  rcases mem_repr member with sign | digit
  · exact absurd sign (by decide)
  · exact absurd digit (by decide)

/-- The digits of a natural number tell it. -/
theorem natRepr_injective : Function.Injective Nat.repr := by
  intro number other same
  have digits : Nat.toDigits 10 number = Nat.toDigits 10 other := by
    simpa only [Nat.repr, String.toList_ofList] using congrArg String.toList same
  have read := congrArg (Nat.ofDigitChars 10 · 0) digits
  simpa only [Nat.ofDigitChars_ten_toDigits] using read

/-- A number is told by its sign and its digits. `Int.repr_inj` says the same, but comes with the
whole library only. -/
theorem intRepr_injective : Function.Injective Int.repr := by
  intro number other same
  have unsigned : ∀ natural : Nat, '-' ∉ (Int.ofNat natural).repr.toList := by
    intro natural written
    rw [Int.repr, Nat.repr, String.toList_ofList] at written
    exact absurd (Nat.isDigit_of_mem_toDigits (by decide) (by decide) written) (by decide)
  have signed : ∀ natural : Nat, '-' ∈ (Int.negSucc natural).repr.toList := by
    intro natural
    simp [Int.repr, String.toList_append]
  have signs : '-' ∈ number.repr.toList ↔ '-' ∈ other.repr.toList := by rw [same]
  cases number with
  | ofNat natural =>
    cases other with
    | ofNat otherNatural => exact congrArg Int.ofNat (natRepr_injective same)
    | negSucc otherNatural => exact absurd (signs.mpr (signed otherNatural)) (unsigned natural)
  | negSucc natural =>
    cases other with
    | ofNat otherNatural => exact absurd (signs.mp (signed natural)) (unsigned otherNatural)
    | negSucc otherNatural =>
      have naturals := natRepr_injective ((String.append_right_inj _).mp same)
      rw [Nat.succ.inj naturals]

private theorem tag_length (kind : Kind) : kind.tag.toList.length = 3 := by
  obtain (_ | _ | _ | _) | _ := kind <;> rfl

private theorem tag_injective {kind other : Kind} (same : kind.tag.toList = other.tag.toList) :
    kind = other := by
  obtain (_ | _ | _ | _) | _ := kind <;> obtain (_ | _ | _ | _) | _ := other <;>
    first | rfl | exact absurd same (by decide)

/-- The characters of a label. -/
theorem label_toList (facts : Facts) :
    (label .all facts.kind facts.name facts.counts).toList =
      facts.kind.tag.toList ++ ' ' :: (facts.name.toList ++
        if facts.kind.isLeaf then [] else
          " | Classes:".toList ++ ' ' :: facts.counts.classes.repr.toList ++
            " | Methods:".toList ++ ' ' :: facts.counts.functions.repr.toList) := by
  cases leaf : facts.kind.isLeaf <;> simp [label, DrawingOptions.all, leaf]

/-- A label tells the kind, the name and the counters. -/
theorem label_injective {facts other : Facts}
    (bare : facts.kind = .function → facts.counts = 0)
    (otherBare : other.kind = .function → other.counts = 0)
    (same : label .all facts.kind facts.name facts.counts =
      label .all other.kind other.name other.counts) : facts = other := by
  have characters := congrArg String.toList same
  rw [label_toList, label_toList] at characters
  obtain ⟨tags, rest⟩ :=
    List.append_inj characters ((tag_length facts.kind).trans (tag_length other.kind).symm)
  obtain ⟨kind, name, counts⟩ := facts
  obtain ⟨otherKind, otherName, otherCounts⟩ := other
  obtain rfl : kind = otherKind := tag_injective tags
  have texts := (List.cons.inj rest).2
  cases kind with
  | function =>
    obtain rfl : counts = 0 := bare rfl
    obtain rfl : otherCounts = 0 := otherBare rfl
    simp only [Kind.isLeaf, if_true, List.append_nil] at texts
    rw [String.toList_injective texts]
  | branch kind =>
    simp only [Kind.isLeaf, Bool.false_eq_true, if_false] at texts
    -- The counters are found from the end of the text, the last one first.
    simp only [← List.append_assoc] at texts
    obtain ⟨texts, functions⟩ := append_blank_inj (repr_noBlank _) (repr_noBlank _) texts
    have trimmed : (name.toList ++ " | Classes:".toList) ++ ' ' :: counts.classes.repr.toList =
        (otherName.toList ++ " | Classes:".toList) ++ ' ' :: otherCounts.classes.repr.toList := by
      simpa only [List.append_assoc] using List.append_cancel_right texts
    obtain ⟨texts, classes⟩ := append_blank_inj (repr_noBlank _) (repr_noBlank _) trimmed
    have names := List.append_cancel_right texts
    rw [String.toList_injective names, Count.ext
      (intRepr_injective (String.toList_injective classes))
      (intRepr_injective (String.toList_injective functions))]

/-! ### Lines -/

/-- Whether a line is below the unit that its block belongs to. -/
def isGuided (line : String) : Bool :=
  line.toList.head? == some ' ' || line.toList.head? == some '│'

private theorem isGuided_guide (isLast : Bool) (line : String) :
    isGuided (guide isLast ++ line) = true := by
  cases isLast <;> simp [isGuided, guide]

private theorem isGuided_branchMark (isLast : Bool) (line : String) :
    isGuided (branchMark isLast ++ line) = false := by
  cases isLast <;> simp [isGuided, branchMark]

/-- Marks have the same width. -/
theorem marked_inj {mark other first second : String} (four : mark.length = 4)
    (otherFour : other.length = 4) (same : mark ++ first = other ++ second) : first = second := by
  have characters := congrArg String.toList same
  rw [String.toList_append, String.toList_append] at characters
  exact String.toList_injective (List.append_inj characters (by
    rw [String.length_toList, String.length_toList, four, otherFour])).2

private theorem guided_inj {isLast other : Bool} {first second : List String}
    (same : first.map (guide isLast ++ ·) = second.map (guide other ++ ·)) : first = second := by
  induction first generalizing second with
  | nil => simpa using same
  | cons line first inductionHypothesis =>
    cases second with
    | nil => simp at same
    | cons otherLine second =>
      obtain ⟨head, tail⟩ := List.cons.inj same
      rw [marked_inj (guide_length _) (guide_length _) head, inductionHypothesis tail]

/-- Guided lines end where lines begin that are not guided. -/
theorem guided_append_inj {first second front back : List String}
    (guided : ∀ line ∈ first, isGuided line = true) (guidedToo : ∀ line ∈ second, isGuided line = true)
    (ends : ∀ line ∈ front.head?, isGuided line = false)
    (endsToo : ∀ line ∈ back.head?, isGuided line = false)
    (same : first ++ front = second ++ back) : first = second ∧ front = back := by
  have block : ∀ {lines rest : List String}, (∀ line ∈ lines, isGuided line = true) →
      (∀ line ∈ rest.head?, isGuided line = false) →
        (lines ++ rest).takeWhile isGuided = lines := by
    intro lines rest all none
    rw [List.takeWhile_append_of_pos all]
    cases rest with
    | nil => simp
    | cons line rest => simp [none line rfl]
  have blocks : first = second := by
    rw [← block guided ends, same, block guidedToo endsToo]
  subst blocks
  exact ⟨rfl, List.append_cancel_left same⟩

namespace Outline

/-- The lines of siblings when everything is shown. -/
theorem childLines_cons (child : Outline) (siblings : List Outline) :
    ∃ isLast, childLines .all (child :: siblings) =
      (branchMark isLast ++ label .all child.label.kind child.label.name child.label.counts) ::
        ((childLines .all child.children).map (guide isLast ++ ·) ++ childLines .all siblings) := by
  obtain ⟨facts, children⟩ := child
  exact ⟨_, childLines_visible rfl rfl (lines_mk .all facts children)⟩

/-- The lines of siblings do not begin with one that is below another. -/
theorem childLines_head (trees : List Outline) :
    ∀ line ∈ (childLines .all trees).head?, isGuided line = false := by
  cases trees with
  | nil => simp [childLines]
  | cons child siblings =>
    obtain ⟨isLast, lines⟩ := childLines_cons child siblings
    rw [lines]
    intro line first
    obtain rfl := Option.some.inj first
    exact isGuided_branchMark _ _

/-- Functions count nothing. -/
def Bare (outline : Outline) : Prop :=
  ∀ facts ∈ outline.labels, facts.kind = .function → facts.counts = 0

private theorem childLines_injective {trees others : List Outline}
    (each : ∀ child ∈ trees, ∀ other : Outline, other.Bare →
      lines .all child = lines .all other → child = other)
    (othersBare : ∀ other ∈ others, other.Bare)
    (same : childLines .all trees = childLines .all others) : trees = others := by
  induction trees generalizing others with
  | nil =>
    cases others with
    | nil => rfl
    | cons other others =>
      obtain ⟨_, lines⟩ := childLines_cons other others
      rw [lines, childLines] at same
      cases same
  | cons child siblings inductionHypothesis =>
    cases others with
    | nil =>
      obtain ⟨_, lines⟩ := childLines_cons child siblings
      rw [lines, childLines] at same
      cases same
    | cons other others =>
      rw [List.forall_mem_cons] at each othersBare
      obtain ⟨_, own⟩ := childLines_cons child siblings
      obtain ⟨_, otherOwn⟩ := childLines_cons other others
      rw [own, otherOwn] at same
      obtain ⟨heads, tails⟩ := List.cons.inj same
      have labels := marked_inj (branchMark_length _) (branchMark_length _) heads
      have guided : ∀ (isLast : Bool) (below : List String),
          ∀ line ∈ below.map (guide isLast ++ ·), isGuided line = true := by
        intro isLast below line member
        obtain ⟨inner, -, rfl⟩ := List.mem_map.mp member
        exact isGuided_guide _ _
      obtain ⟨blocks, rests⟩ := guided_append_inj (guided _ _) (guided _ _)
        (childLines_head siblings) (childLines_head others) tails
      have below := guided_inj blocks
      have sameLines : lines .all child = lines .all other := by
        obtain ⟨facts, children⟩ := child
        obtain ⟨otherFacts, otherChildren⟩ := other
        rw [lines_mk, lines_mk, labels, below]
      rw [each.1 other othersBare.1 sameLines,
        inductionHypothesis each.2 othersBare.2 rests]

/-- The lines tell the outline. -/
theorem lines_injective {outline other : Outline} (bare : outline.Bare) (otherBare : other.Bare)
    (same : lines .all outline = lines .all other) : outline = other := by
  induction outline using Rose.induct generalizing other with
  | node facts children inductionHypothesis =>
    obtain ⟨otherFacts, otherChildren⟩ := other
    rw [lines_mk, lines_mk] at same
    obtain ⟨heads, tails⟩ := List.cons.inj same
    have childBare : ∀ child ∈ children, Bare child := fun child member inner inside =>
      bare inner (Rose.mem_labels_of_child member inside)
    have otherChildBare : ∀ child ∈ otherChildren, Bare child := fun child member inner inside =>
      otherBare inner (Rose.mem_labels_of_child member inside)
    obtain rfl : facts = otherFacts :=
      label_injective (bare facts (Rose.label_mem_labels ⟨facts, children⟩))
        (otherBare otherFacts (Rose.label_mem_labels ⟨otherFacts, otherChildren⟩)) heads
    have sameChildren : children = otherChildren :=
      childLines_injective (fun child member other isBare =>
        inductionHypothesis child member (childBare child member) isBare) otherChildBare tails
    rw [sameChildren]

end Outline

namespace Tree

variable {tree : Tree} {shape : Rose Handle} {outline : Outline} {options : DrawingOptions}
  {handle : Handle}

/-- Only slots hold names. -/
instance (tree : Tree) : Decidable tree.OneLineNames :=
  decidable_of_iff (∀ handle < tree.forest.slots.size, ∀ node ∈ tree.node? handle,
      '\n' ∉ node.name.toList)
    ⟨fun each handle node live => each handle (Forest.lt_fresh_of_node? live) node live,
      fun names handle _ node live => names handle node live⟩

/-- Leaves show no counters. -/
theorem Shows.bare (shows : tree.Shows shape outline) : outline.Bare := by
  intro facts member isFunction
  rw [← shows.facts] at member
  obtain ⟨position, unit, here, rfl⟩ := Rose.mem_labels.mp member
  rw [Rose.at?_map] at here
  obtain ⟨subshape, there, rfl⟩ := Option.map_eq_some_iff.mp here
  obtain ⟨node, live⟩ := shows.shaped.live (Rose.label_mem_of_at? there)
  rw [Rose.label_map, Forest.facts_of_node? live] at isFunction ⊢
  obtain ⟨name, payload, parent, children⟩ := node
  cases payload with
  | branch kind counts => cases isFunction
  | leaf => rfl

/-- The line of a visible node is its label behind its margin. -/
theorem line_of_visible (visible : handle ∈ tree.visible options) :
    ∃ node, tree.node? handle = some node ∧
      tree.line options handle = tree.margin options handle ++ node.label options := by
  have seen := (List.mem_filter.mp visible).2
  obtain ⟨node, live, -⟩ := (Option.any_eq_true _ _).mp seen
  exact ⟨node, live, by simp [line, live]⟩

private theorem line_oneLine (names : tree.OneLineNames) (visible : handle ∈ tree.visible options) :
    '\n' ∉ (tree.line options handle).toList := by
  obtain ⟨node, live, same⟩ := line_of_visible visible
  rw [same, String.toList_append, List.mem_append, not_or]
  exact ⟨margin_oneLine _ _, label_oneLine options node.kind node.counts (names handle node live)⟩

/-- Split at its newlines, a drawing is the lines of the visible nodes. -/
theorem Shows.splitOn_draw (shows : tree.Shows shape outline) (names : tree.OneLineNames)
    (options : DrawingOptions) : (tree.draw options).toList.splitOn '\n' =
      (tree.visible options).map (fun handle => (tree.line options handle).toList) ++ [[]] := by
  have drawn : tree.draw options = outline.draw options := by
    rw [draw, shows.outline?]
  rw [drawn, Outline.draw, shows.lines_eq, splitOn_lines, List.map_map]
  · rfl
  · intro line member
    obtain ⟨handle, visible, rfl⟩ := List.mem_map.mp member
    exact line_oneLine names visible

/-- The width of a margin tells the depth of the node, and its last mark whether the node is the last
visible child. -/
theorem Shows.margin_facts (shows : tree.Shows shape outline) (options : DrawingOptions)
    (member : handle ∈ tree.handles) :
    (tree.margin options handle).length + 4 = 4 * (tree.path handle).length ∧
      ("└── ".toList <:+ (tree.margin options handle).toList ↔
        tree.isLastVisible options handle = true) := by
  rw [shows.handles] at member
  obtain ⟨position, subshape, here, rfl⟩ := Rose.mem_labels.mp member
  obtain ⟨node, live⟩ := shows.shaped.live member
  have path : (tree.path subshape.label).length = (shape.spine position).length := by
    rw [Tree.path, shows.shaped.lineage here, List.reverse_reverse, List.length_filterMap_eq_countP]
    refine List.countP_eq_length.mpr fun above onWay => ?_
    obtain ⟨aboveNode, aboveLive⟩ := shows.shaped.live (Rose.mem_labels_of_mem_spine onWay)
    simp [node?, aboveLive]
  rw [path, margin, margin_length, shows.descent_eq here]
  constructor
  · rw [Rose.spine_eq_cons shape position, List.tail_cons, List.length_cons]
    omega
  · rcases shows.target_cases here live with
      ⟨rfl, top⟩ | ⟨upper, index, above, parent, rfl, aboveHere, below, -⟩
    · have noParent : tree.isLastVisible options subshape.label = false := by
        simp [isLastVisible, parent?, node?, live, top]
      rw [noParent]
      simp [Rose.spine, CodeCensus.margin]
    · rw [Rose.spine_append aboveHere below, Rose.spine_eq_cons shape upper, List.cons_append,
        List.tail_cons]
      exact corner_suffix_margin _ _ _

/-- A drawing that shows everything tells the tree, when all names are single lines: two trees with the
same drawing have the same outline. Whatever is shown, a drawing has exactly one line for every
visible node, in pre-order, which is the label of the node behind a margin of four characters for each
level below the root, and the margin ends in a corner exactly if the node is the last visible child
of its parent. -/
theorem drawing_is_lossless :
    (∀ first second : Tree, first.Reachable → second.Reachable → first.OneLineNames →
      second.OneLineNames → first.draw .all = second.draw .all →
      ∃ outline, first.outline? = some outline ∧ second.outline? = some outline) ∧
    ∀ tree : Tree, tree.Reachable → tree.OneLineNames → ∀ options : DrawingOptions,
      (tree.draw options).toList.splitOn '\n' =
        (tree.visible options).map (fun handle => (tree.line options handle).toList) ++ [[]] ∧
      ∀ handle ∈ tree.visible options,
        (∃ node, tree.node? handle = some node ∧
          tree.line options handle = tree.margin options handle ++ node.label options) ∧
        (tree.margin options handle).length + 4 = 4 * (tree.path handle).length ∧
        ("└── ".toList <:+ (tree.margin options handle).toList ↔
          tree.isLastVisible options handle = true) := by
  constructor
  · intro first second reachable secondReachable names secondNames same
    obtain ⟨_, outline, shows⟩ := reachable.shows
    obtain ⟨_, other, otherShows⟩ := secondReachable.shows
    have texts := shows.splitOn_draw names .all
    rw [same, otherShows.splitOn_draw secondNames] at texts
    have characters : (second.visible .all).map (fun handle => (second.line .all handle).toList) =
        (first.visible .all).map fun handle => (first.line .all handle).toList :=
      List.append_cancel_right texts
    have lines : outline.lines .all = other.lines .all := by
      rw [shows.lines_eq, otherShows.lines_eq]
      refine List.map_injective_iff.mpr (fun _ _ same => String.toList_injective same) ?_
      rw [List.map_map, List.map_map]
      exact characters.symm
    obtain rfl := Outline.lines_injective shows.bare otherShows.bare lines
    exact ⟨outline, shows.outline?, otherShows.outline?⟩
  · intro tree reachable names options
    obtain ⟨_, outline, shows⟩ := reachable.shows
    refine ⟨shows.splitOn_draw names options, fun handle visible => ⟨line_of_visible visible, ?_⟩⟩
    exact shows.margin_facts options (List.mem_of_mem_filter visible)

/-- A package with counters in its name, a class, and behind them a function that looks like a line. -/
def disguised : Entry :=
  ⟨.module, "p", ⟨1, 1⟩, [⟨.package, "a | Classes: 1 | Methods: 0", 0, []⟩,
    .ofClass "A" [.function "f"], .function "└── [C] B"]⟩

/-- The same tree comes about when the function is added later. When functions are hidden, the class
is the last child. -/
theorem disguised_is_recognized :
    let tree := (ofEntry disguised).tree
    (∃ outcome outline, (ofEntry { disguised with nested := disguised.nested.dropLast }).tree.mutate
        (.create "p" (.function "└── [C] B")) = .ok outcome ∧
      outcome.tree.draw .all = tree.draw .all ∧
      outcome.tree.outline? = some outline ∧ tree.outline? = some outline) ∧
    tree.visible ⟨false, true⟩ = [0, 1, 2] ∧
    ((tree.draw ⟨false, true⟩).toList.splitOn '\n').length = 4 ∧
    "└── ".toList <:+ (tree.margin ⟨false, true⟩ 2).toList := by
  intro tree
  have reachable : tree.Reachable := ⟨_, .refl⟩
  have names : tree.OneLineNames := by decide +kernel
  have created : ((ofEntry { disguised with nested := disguised.nested.dropLast }).tree.mutate
      (.create "p" (.function "└── [C] B"))).toOption.any (fun outcome =>
        decide (outcome.tree.OneLineNames ∧ outcome.tree.draw .all = tree.draw .all)) = true := by
    decide +kernel
  obtain ⟨outcome, done, checked⟩ := Fault.ok_of_any created
  obtain ⟨laterNames, same⟩ := of_decide_eq_true checked
  have later : outcome.tree.Reachable := ⟨_, .mutated .refl done⟩
  obtain ⟨outline, shown, alike⟩ :=
    drawing_is_lossless.1 outcome.tree tree later reachable laterNames names same
  have visible : tree.visible ⟨false, true⟩ = [0, 1, 2] := by decide +kernel
  obtain ⟨lines, margins⟩ := drawing_is_lossless.2 tree reachable names ⟨false, true⟩
  refine ⟨⟨outcome, outline, done, same, shown, alike⟩, visible, ?_, ?_⟩
  · rw [lines, visible]
    rfl
  · exact (margins 2 (by rw [visible]; decide)).2.2.mpr (by decide +kernel)

end Tree

end CodeCensus

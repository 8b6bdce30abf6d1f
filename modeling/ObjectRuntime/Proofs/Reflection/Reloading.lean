import ObjectRuntime.Proofs.Reflection.Finiteness
import ObjectRuntime.Proofs.Reflection.Growth
import ObjectRuntime.Proofs.Reflection.RoundTrip
import ObjectRuntime.Proofs.Text.Decimals
set_option autoImplicit false

/-!
# Graphs that are saved, loaded and compared

A graph and the copy of it that has been loaded lie side by side in one world, in which the objects of
the graph are as they were.  Copies match the objects that they are copies of, and objects that can be
bound have one copy each.  Numbers are read back bit by bit, so the comparison finds no difference but
for infinite numbers, which differ from themselves.
-/

namespace ObjectRuntime

namespace World

variable {κ : Type} {w v : World κ} {h : Heap κ} {r : Ref} {a b : ObjId} {R : ObjId → ObjId → Prop}

/-! ## Graphs and their copies side by side -/

/-- A graph of which a comparison sees no more than its text says: maps have strings as keys, and
strings are neither variables nor graph nodes. -/
structure Comparable (w : World κ) (r : Ref) : Prop where
  keys : ∀ {id entries}, w.Below r id → w.payload? id = some (.map entries) →
    ∀ e ∈ entries, ∃ s, e.1.bind w.text? = some s
  strings : ∀ {id s}, w.Below r id → w.payload? id = some (.text s) → w.isBindable id = false

namespace SharingCopy

variable (hcopy : w.SharingCopy r h R) (hmade : w.WellMade r)
include hcopy hmade

theorem lives (hab : R a b) : w.Lives a := hmade.lives (hcopy.below hab)

theorem typeIndex (hab : R a b) : (w.withHeap h).typeIndex a = w.typeIndex a := by
  obtain ⟨payload, hcontent⟩ := hcopy.lives hmade hab a .refl
  exact typeIndex_grown hcopy.grown hcontent

theorem schemaOf? (hab : R a b) : (w.withHeap h).schemaOf? a = w.schemaOf? a := by
  obtain ⟨payload, hcontent⟩ := hcopy.lives hmade hab a .refl
  exact schemaOf?_grown hcopy.grown hcontent

theorem tensorBytes (hab : R a b) (t : Tensor) :
    (w.withHeap h).tensorBytes a t = w.tensorBytes a t := by
  obtain ⟨o, ho, -⟩ := hcopy.copying a b hab
  obtain ⟨top, htop, hreach⟩ := hcopy.below hab
  refine (hcopy.lives hmade hab).tensorBytes (fun c hac => ?_) hcopy.grown ?_ t
  · exact hmade.acyclic top htop c (hreach.trans hac)
  · exact Nat.le_of_lt (Nat.lt_of_le_of_lt (hcopy.apart hab) (Heap.lt_size_of_get? ho))

/-- The copies are copies of what the objects are in the world with both. -/
theorem copying_here : Copying (w.withHeap h) h R := by
  intro a b hab
  obtain ⟨⟨i, n, payload⟩, ho, htype, hpayload⟩ := hcopy.copying a b hab
  refine ⟨_, ho, htype.trans (hcopy.typeIndex hmade hab).symm, ?_⟩
  have hgrown := hcopy.grown
  cases hpayload with
  | text s content => exact .text s (payload?_grown hgrown content)
  | shape dims content => exact .shape dims (payload?_grown hgrown content)
  | array elems elems' content copies => exact .array elems elems' (payload?_grown hgrown content) copies
  | map entries entries' content copies =>
      exact .map entries entries' (payload?_grown hgrown content) copies
  | tensor t unit data content bytes size =>
      exact .tensor t unit data (payload?_grown hgrown content)
        ((hcopy.tensorBytes hmade hab t).trans bytes) size
  | node schema values values' reflected content copies =>
      exact .node schema values values' ((hcopy.schemaOf? hmade hab).trans reflected)
        (payload?_grown hgrown content) copies

variable (hgraph : w.Comparable r)
include hgraph

omit hmade in
/-- The keys of a copied map are strings with the texts of the keys of the map. -/
theorem keyMatch (hab : R a b) {entries : List (Ref × Ref)} {e e' : Ref × Ref}
    (hcontent : w.payload? a = some (.map entries)) (he : e ∈ entries) (hrel : EntryCopy R e e') :
    KeyMatch (w.withHeap h) R e.1 e'.1 := by
  obtain ⟨k, v⟩ := e
  obtain ⟨k', v'⟩ := e'
  obtain ⟨s, hs⟩ := hgraph.keys (hcopy.below hab) hcontent _ he
  obtain ⟨x, rfl, hx⟩ := Option.bind_eq_some_iff.mp hs
  refine ⟨hrel.1, .inr ⟨s, ?_, ?_⟩⟩
  · exact (text?_grown hcopy.grown (payload?_of_text? hx)).trans hx
  · have hcopied : RefRel (CopyOf w h) (some x) k' :=
      hrel.1.mono fun _ _ _ _ hxy => ⟨R, hxy, hcopy.copying⟩
    exact (Loading.text_copy hcopied).trans hs

/-- Copies have the contents of the objects. -/
theorem contentMatch (hab : R a b) (hschema : w.schemaOf? a = none) :
    ContentMatch (w.withHeap h) R a b := by
  have hgrown := hcopy.grown
  obtain ⟨⟨i, n, payload⟩, ho, -, hpayload⟩ := hcopy.copying a b hab
  have hright : (w.withHeap h).payload? b = some payload := by simp [payload?, ho]
  cases hpayload with
  | text s content => exact .text s (payload?_grown hgrown content) hright
  | shape dims content => exact .shape dims (payload?_grown hgrown content) hright
  | array elems elems' content copies =>
      exact .array elems elems' (payload?_grown hgrown content) hright copies
  | map entries entries' content copies =>
      refine .map entries entries' (payload?_grown hgrown content) hright ?_
        (forall₂_imp_mem copies fun e e' he _ hrel =>
          ⟨hcopy.keyMatch hgraph hab content he hrel, hrel.2⟩)
      have hkeyed : ∀ e ∈ entries, e.1.bind w.text? ≠ none := by
        intro e he hnone
        obtain ⟨s, hs⟩ := hgraph.keys (hcopy.below hab) content e he
        cases hnone.symm.trans hs
      have hcopied : ∀ {r r'}, RefRel R r r' → RefRel (CopyOf w h) r r' :=
        fun hrel => hrel.mono fun _ _ _ _ hxy => ⟨R, hxy, hcopy.copying⟩
      have hdistinct := (hmade.made a (hcopy.below hab)).distinct content
      refine pairwise_of_forall₂ copies hdistinct fun e he e' he' c c' hc hc' hne => ?_
      refine Loading.sameKey_copy (hcopied hc.1) (hcopied hc'.1) (fun hnone => ?_) hne
      exact (hnone.elim (hkeyed e he) (hkeyed e' he')).elim
  | tensor t unit data content bytes size =>
      exact .tensor t _ data (payload?_grown hgrown content) hright rfl rfl
        ((hcopy.tensorBytes hmade hab t).trans bytes) (tensorBytes_owned hright size)
  | node schema values values' reflected content copies =>
      rw [hschema] at reflected
      cases reflected

/-- What can be bound is neither a string nor a box. -/
theorem not_isLoose (hab : R a b) (hbindable : (w.withHeap h).isBindable a = true) :
    ¬ w.IsLoose a := by
  rw [isBindable, hcopy.schemaOf? hmade hab] at hbindable
  rintro (⟨s, hs⟩ | ⟨schema, hschema, hclass⟩)
  · have hno := hgraph.strings (hcopy.below hab) hs
    rw [isBindable, hbindable] at hno
    cases hno
  · have htree : ∀ s ∈ Schema.builtins, s.kind = .tree := by decide
    rw [schemaOf?_box hmade.regular hschema hclass] at hbindable
    simp [htree schema hschema] at hbindable

/-- The objects of a graph match their copies. -/
theorem matching : Matching (w.withHeap h) R SameValue where
  typeIndex hab := (typeIndex_of_copying (hcopy.copying_here hmade) hab).symm
  attrs hab _ := by
    have hparts := sameParts_of_copying ⟨rfl, rfl⟩ (hcopy.copying_here hmade) hab
    exact hparts.attrs.imp fun attr attr' ⟨⟨hkey, hplace, hsame⟩, hrel⟩ =>
      ⟨hkey, hplace, hrel, fun _ => hsame⟩
  content hab hschema :=
    hcopy.contentMatch hmade hgraph hab ((hcopy.schemaOf? hmade hab).symm.trans hschema)
  oneToOne hab hab' hbindable hbindable' := hcopy.oneToOne hab hab'
    (hcopy.not_isLoose hmade hgraph hab hbindable) (hcopy.not_isLoose hmade hgraph hab' hbindable')

/-- A graph is equal to its copy if and only if the numbers in it are finite. -/
theorem equal_iff {r' : Ref} (hrel : RefRel R r r') :
    structuralEqual (w.withHeap h) r r' true = .ok true ↔ w.FiniteFloats r := by
  have hsame : SameGraph w (w.withHeap h) r := by
    intro x hx
    obtain ⟨payload, hcontent⟩ := hmade.lives hx.below x .refl
    exact ⟨schemaOf?_grown hcopy.grown hcontent,
      (payload?_grown hcopy.grown hcontent).trans hcontent.symm⟩
  rw [← finiteFloats_of_same hsame]
  refine structuralEqual_iff_finiteFloats (hcopy.matching hmade hgraph) (fun hab heq => ?_)
    (fun a ha => ?_) hrel
  · obtain ⟨payload, hcontent⟩ := hcopy.lives hmade hab _ .refl
    obtain ⟨o, ho, -⟩ := Option.map_eq_some_iff.mp hcontent
    exact Nat.not_lt.mpr (heq ▸ hcopy.apart hab) (Heap.lt_size_of_get? ho)
  · exact (hmade.acyclic a ha).grown (hmade.lives ⟨a, ha, .refl⟩) hcopy.grown

end SharingCopy

/-! ## Graphs that have been saved -/

namespace Asked

variable (hasked : w.Asked v) (hmade : w.WellMade r)
include hasked hmade

/-- Saving only looks classes up, so the objects of the graph keep their types and contents. -/
theorem sameObject (ha : w.Below r a) :
    v.schemaOf? a = w.schemaOf? a ∧ v.payload? a = w.payload? a := by
  refine ⟨?_, hasked.payload? a⟩
  cases hmade.made a ha with
  | text _ cls | shape _ cls | array _ cls | map _ cls | tensor _ cls | node _ _ cls =>
      exact hasked.schemaOf? cls

theorem comparable (hgraph : w.Comparable r) : v.Comparable r where
  keys hid hcontent e he := by
    rw [funext hasked.text?]
    exact hgraph.keys (hasked.below.mp hid) ((hasked.payload? _).symm.trans hcontent) e he
  strings hid hcontent := by
    have hbelow := hasked.below.mp hid
    rw [isBindable, (hasked.sameObject hmade hbelow).1]
    exact hgraph.strings hbelow ((hasked.payload? _).symm.trans hcontent)

theorem finiteFloats : v.FiniteFloats r ↔ w.FiniteFloats r :=
  finiteFloats_of_same fun _ hx => hasked.sameObject hmade hx.below

end Asked

end World

/-- A graph that has been saved is loaded as a copy that shares what it shares. -/
theorem loadText_sharing {κ : Type} {w v : World κ} {r : Ref} {text : String}
    (hmade : w.WellMade r) (hsave : Reflection.save r w = (.ok text, v))
    (hroom : ∀ graph, (Saving.graphOf w r : Run κ Graph) w = (.ok graph, v) →
      IntKind.usize.Fits graph.nodes.length) :
    w.Asked v ∧ ∃ r' h R, loadText text v = (.ok r', v.withHeap h) ∧ v.SharingCopy r h R ∧
      World.RefRel R r r' := by
  obtain ⟨graph, numbers, rfl, hgraph, hsaved⟩ := Saving.saved_of_save hmade.regular hsave
  have hcount := hroom graph hgraph
  have hfloats : w.FloatsReadBack r := fun _ _ _ _ x _ => x.readsBack
  obtain ⟨r', h, R, hload, hcopy⟩ :=
    loadGraph_sharing (Saving.spellsAll_of_saved hmade hfloats hsaved hcount) hsaved.root
  refine ⟨hsaved.asked, r', h, R, ?_, hcopy⟩
  rw [loadText, Saving.parse_of_saved hsaved hcount]
  exact hload

/-- A graph that has been saved is loaded, and is equal to what has been loaded if and only if the
floating point numbers in it are finite. -/
theorem load_of_save_equal_iff {κ : Type} {w v : World κ} {r : Ref} {text : String}
    (hmade : w.WellMade r) (hgraph : w.Comparable r)
    (hsave : Reflection.save r w = (.ok text, v))
    (hroom : ∀ graph, (Saving.graphOf w r : Run κ Graph) w = (.ok graph, v) →
      IntKind.usize.Fits graph.nodes.length) :
    ∃ r' v', loadText text v = (.ok r', v') ∧
      (structuralEqual v' r r' true = .ok true ↔ w.FiniteFloats r) := by
  obtain ⟨hasked, r', h, R, hload, hcopy, hrel⟩ := loadText_sharing hmade hsave hroom
  refine ⟨r', v.withHeap h, hload, ?_⟩
  rw [hcopy.equal_iff (hasked.wellMade hmade) (hasked.comparable hmade hgraph) hrel,
    hasked.finiteFloats hmade]

/-! ## Two graphs -/

/-- A graph is saved if it can be numbered. -/
theorem save_of_count {κ : Type} {w : World κ} {r : Ref} {n : Nat}
    (hcount : ((Saving.graphOf w r : Run κ Graph) w).1.toOption.map
      (fun graph => graph.nodes.length) = some n) (hfits : IntKind.usize.Fits n) :
    ∃ text v, Reflection.save r w = (.ok text, v) ∧
      ∀ graph, (Saving.graphOf w r : Run κ Graph) w = (.ok graph, v) →
        IntKind.usize.Fits graph.nodes.length := by
  obtain ⟨graph, hgraph, hnodes⟩ := Option.map_eq_some_iff.mp hcount
  rcases hrun : (Saving.graphOf w r : Run κ Graph) w with ⟨answer, v⟩
  rw [hrun] at hgraph
  cases answer with
  | error fault => cases hgraph
  | ok graph' =>
      cases hgraph
      refine ⟨graph.toText, v, ?_, fun graph' hgraph' => ?_⟩
      · rw [Reflection.save, run_get_bind, run_bind_of_ok hrun]
        rfl
      · cases hgraph'
        exact hnodes ▸ hfits

theorem sharedShape_comparable : sharedShape.Comparable (some ⟨4⟩) where
  keys {id entries} hid hcontent e he := by
    obtain ⟨i⟩ := id
    have hi : i < 5 := sharedShape_below hid
    interval_cases i <;> cases hcontent
    cases List.mem_singleton.mp he
    exact ⟨"k", rfl⟩
  strings {id s} hid hcontent := by
    obtain ⟨i⟩ := id
    have hi : i < 5 := sharedShape_below hid
    interval_cases i <;> cases hcontent
    decide +kernel

theorem sharedShape_finiteFloats : sharedShape.FiniteFloats (some ⟨4⟩) := by
  intro id hid a ha x hx
  rw [sharedShape_float hid.below ha hx]
  exact ⟨false, 2 ^ 52, -51, by decide +kernel⟩

theorem sharedShape_counted : ((Saving.graphOf sharedShape (some ⟨4⟩) : Run Unit Graph)
    sharedShape).1.toOption.map (fun graph => graph.nodes.length) = some 6 := by decide +kernel

theorem sharedShape_load_equal :
    ∃ text v, Reflection.save (some ⟨4⟩) sharedShape = (.ok text, v) ∧
      ∃ r' v', loadText text v = (.ok r', v') ∧
        structuralEqual v' (some ⟨4⟩) r' true = .ok true := by
  obtain ⟨text, v, hsave, hroom⟩ := save_of_count sharedShape_counted (by decide)
  obtain ⟨r', v', hload, hequal⟩ := load_of_save_equal_iff sharedShape_wellMade
    sharedShape_comparable hsave hroom
  exact ⟨text, v, hsave, r', v', hload, hequal.mpr sharedShape_finiteFloats⟩

/-- A box with an infinite number. -/
def infiniteBox : World Unit :=
  { (World.initial : World Unit) with
    types := ObjectClass.builtins.foldl (fun t c => (t.touch c).2) .initial
    heap := ⟨#[some ⟨9, 1, .boxFloat (.infinity false)⟩], []⟩ }

theorem infiniteBox_below {id : ObjId} (hid : infiniteBox.Below (some ⟨0⟩) id) : id = ⟨0⟩ := by
  obtain ⟨a, ha, hreach⟩ := hid
  cases ha
  rcases hreach.cases_head with rfl | ⟨b, ⟨content, hcontent, hb⟩, -⟩
  · rfl
  · cases hcontent
    cases hb

theorem infiniteBox_wellMade : infiniteBox.WellMade (some ⟨0⟩) where
  regular := TypeTable.Regular.initial.touchAll fun _ hc => ObjectClass.rightful_of_mem_builtins hc
  made id hid := by
    obtain rfl := infiniteBox_below hid
    exact .node (.box .boxFloat .f64) [.float (.infinity false)] rfl (by decide +kernel) (by decide)
      (by decide) rfl (.cons trivial .nil)
  acyclic a _ := World.acyclicAt_of_isOrdered rfl a

theorem infiniteBox_shown : infiniteBox.shown ⟨0⟩ =
    [⟨"value", .float (.infinity false), false⟩] := by decide +kernel

theorem infiniteBox_comparable : infiniteBox.Comparable (some ⟨0⟩) where
  keys hid hcontent := by
    obtain rfl := infiniteBox_below hid
    cases hcontent
  strings hid hcontent := by
    obtain rfl := infiniteBox_below hid
    cases hcontent

/-- The infinite number is saved and loaded, but what has been loaded is not equal to it. -/
theorem infiniteBox_not_equal :
    ∃ text v, Reflection.save (some ⟨0⟩) infiniteBox = (.ok text, v) ∧
      ∃ r' v', loadText text v = (.ok r', v') ∧
        structuralEqual v' (some ⟨0⟩) r' true ≠ .ok true := by
  have hcount : ((Saving.graphOf infiniteBox (some ⟨0⟩) : Run Unit Graph)
      infiniteBox).1.toOption.map (fun graph => graph.nodes.length) = some 2 := by decide +kernel
  obtain ⟨text, v, hsave, hroom⟩ := save_of_count hcount (by decide)
  obtain ⟨hasked, r', h, R, hload, hcopy, hrel⟩ :=
    loadText_sharing infiniteBox_wellMade hsave hroom
  refine ⟨text, v, hsave, r', v.withHeap h, hload, fun hequal => ?_⟩
  rw [hcopy.equal_iff (hasked.wellMade infiniteBox_wellMade)
    (hasked.comparable infiniteBox_wellMade infiniteBox_comparable) hrel,
    hasked.finiteFloats infiniteBox_wellMade] at hequal
  obtain ⟨s, m, e, hfinite⟩ := hequal ⟨0⟩ (.root _) ⟨"value", .float (.infinity false), false⟩
    (by rw [infiniteBox_shown]; exact List.mem_cons_self) _ rfl
  have hinfinite : (Double.infinity false).unpack = .infinite false := by decide +kernel
  cases hinfinite.symm.trans hfinite

end ObjectRuntime

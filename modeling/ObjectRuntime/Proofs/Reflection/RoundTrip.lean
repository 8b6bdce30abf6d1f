import ObjectRuntime.Proofs.NameTable
import ObjectRuntime.Proofs.Reflection.Asking
import ObjectRuntime.Proofs.Reflection.GraphText
import ObjectRuntime.Proofs.Reflection.Resolving
set_option autoImplicit false

/-!
# Saving and loading

The graph that saving makes of an object spells the object and all below it, so loading makes a copy
of it: an object graph that is saved and loaded again has the content that it had
(`load_of_save`).
-/

namespace ObjectRuntime

open Build (Copied Ready)
open Heap (Backed Grown)
open Relation (ReflTransGen)
open World (CopyOf Copying LocalCopy RefRel SameContent)

variable {κ : Type} {w v : World κ} {r : Ref} {id : ObjId} {g : GraphNode} {graph : Graph}
  {numbers : List (ObjId × Nat)} {num : Ref → Nat → Prop}

/-- The floating point numbers in a graph are read back from their texts. -/
def World.FloatsReadBack (w : World κ) (r : Ref) : Prop :=
  ∀ id, w.Below r id → ∀ a ∈ w.shown id, ∀ x, a.value = .float x → x.ReadsBack

namespace Saving

open Loading (Spells FieldTexts)

/-! ## What is saved can be spelled -/

/-- The keys of a map that is written with texts are strings. -/
theorem text_of_stringKeys? {entries : List (Ref × Ref)} {keys : List String}
    (hkeys : stringKeys? w entries = some keys) {e : Ref × Ref} (he : e ∈ entries) :
    ∃ a s, e.1 = some a ∧ w.payload? a = some (.text s) := by
  induction entries generalizing keys with
  | nil => cases he
  | cons e' entries ih =>
      simp only [stringKeys?, List.mapM_cons, bind, Option.bind_eq_some_iff] at hkeys
      obtain ⟨s, hs, rest, hrest, -⟩ := hkeys
      rcases List.mem_cons.mp he with rfl | he
      · obtain ⟨a, ha, htext⟩ := hs
        exact ⟨a, s, ha, World.payload?_of_text? htext⟩
      · exact ih hrest he

theorem stringKeys?_asked (h : w.Asked v) (entries : List (Ref × Ref)) :
    stringKeys? v entries = stringKeys? w entries := by
  simp only [stringKeys?, funext h.text?]

/-- The text of an attribute stands for the value of the field, however that is shown. -/
theorem attrText_of_showField {x : Value} {text : String}
    (h : AttrText num (w.showField x) text) : AttrText num x text := by
  cases x with
  | object tag id =>
      simp only [World.showField, Value.object?, World.showRef_some] at h
      cases h with
      | object number => exact .object number
  | _ => exact h

/-- The attributes that an object shows stand for the values of its fields. -/
theorem fieldTexts_of_namedTexts {fields : List Field} {values : List Value}
    {texts : List (String × String)}
    (htyped : List.Forall₂ (fun f x => v.HasType f.type x) fields values)
    (htexts : List.Forall₂ (NamedText num) (List.zipWith
      (fun (f : Field) x => (⟨f.key, w.showField x, f.role = .definition⟩ : Attr)) fields values)
      texts)
    (hback : ∀ x, .float x ∈ values → x.ReadsBack)
    (htravels : ∀ x ∈ values, ∀ y, x.object? = some y → v.Answered y Run.travelClasses) :
    FieldTexts v num fields values texts := by
  induction htyped generalizing texts with
  | nil =>
      cases htexts
      exact .nil
  | @cons f x fields values htype _ ih =>
      cases htexts with
      | @cons _ e _ texts htext htexts =>
          obtain ⟨key, text⟩ := e
          obtain ⟨rfl, hvalue⟩ := htext
          refine .cons htype (attrText_of_showField hvalue) (fun y hy => hback y (hy ▸ List.mem_cons_self))
            (htravels x List.mem_cons_self)
            (ih htexts (fun y hy => hback y (List.mem_cons_of_mem _ hy))
              fun y hy => htravels y (List.mem_cons_of_mem _ hy))

/-- The value of every field is shown. -/
theorem shows_of_mem {P : Field → Value → Prop} {fields : List Field} {values : List Value}
    (htyped : List.Forall₂ P fields values) {x : Value} (hx : x ∈ values) :
    ∃ a ∈ List.zipWith
      (fun (f : Field) x => (⟨f.key, w.showField x, f.role = .definition⟩ : Attr)) fields values,
        a.value = w.showField x := by
  induction htyped with
  | nil => cases hx
  | cons _ _ ih =>
      rcases List.mem_cons.mp hx with rfl | hx
      · exact ⟨_, List.mem_cons_self, rfl⟩
      · obtain ⟨a, ha, hvalue⟩ := ih hx
        exact ⟨a, List.mem_cons_of_mem _ ha, hvalue⟩

/-- A tensor is saved as one in host memory. -/
theorem hostRecord_of_recordOf {t : Tensor} {saved : Blob.TensorRecord}
    (h : Blob.recordOf w id t = .ok saved) :
    ∃ data, w.tensorBytes id t = .ok data ∧ saved = Blob.hostRecord t.dtype t.shape data := by
  cases hbytes : w.tensorBytes id t with
  | error fault =>
      rw [Blob.recordOf, hbytes] at h
      cases h
  | ok data =>
      rw [Blob.recordOf, hbytes] at h
      cases h
      exact ⟨data, rfl, rfl⟩

/-- The node of an object of a reflected class consists of attributes. -/
theorem describes_reflected {content : Payload κ} (hcontent : w.payload? id = some content)
    (hplain : World.plainClass? content = none) (h : Describes w num id g) :
    ∃ attrs texts, w.attrs id = .ok attrs ∧ List.Forall₂ (NamedText num) attrs texts ∧
      g = { blank (w.typeKey id) with attrs := NameTable.sorted (NameTable.ofList texts) } := by
  simp only [Describes, hcontent] at h
  cases content <;> first | exact h | cases hplain

theorem questioned_reflected {content : Payload κ} (hcontent : w.payload? id = some content)
    (hplain : World.plainClass? content = none) (h : Questioned w v id) :
    v.Reflecting ∧ ∀ a ∈ w.shown id, ∀ x, a.value.object? = some x →
      v.Answered x Run.travelClasses := by
  have hrest := h.2
  simp only [hcontent] at hrest
  cases content <;> first | exact hrest | cases hplain

/-- What is left over of the object's graph when its node is read. -/
structure Legible (w v : World κ) (numbers : List (ObjId × Nat)) (r : Ref) : Prop where
  asked : w.Asked v
  made : w.WellMade r
  floats : w.FloatsReadBack r
  questioned : ∀ a n, numbers.lookup a = some n → Questioned w v a

/-- A node that describes an object of a well made graph spells it. -/
theorem spells_of_describes (h : Legible w v numbers r) (hid : w.Below r id)
    (hdescribes : Describes w (Numbered numbers) id g) (hquestioned : Questioned w v id) :
    Spells v (Numbered numbers) id g := by
  have hregular := h.made.regular
  have hkey : ∀ {c : ObjectClass}, w.OfClass id c → w.typeKey id = c.key :=
    fun hclass => hregular.showKey_classIndex hclass
  have hcontents := h.asked.payload? id
  have hclasses : ∀ {c : ObjectClass}, w.OfClass id c → v.OfClass id c := h.asked.ofClass
  have hmade := h.asked.wellMade h.made
  have hheld : ∀ {content : Payload κ} {a : ObjId}, w.payload? id = some content →
      a ∈ content.references → v.Below r a := by
    intro content a hcontent ha
    obtain ⟨top, htop, hreach⟩ := hid
    exact h.asked.below.mpr ⟨top, htop, hreach.tail ⟨content, hcontent, ha⟩⟩
  cases h.made.made id hid with
  | text s cls content =>
      simp only [Describes, content] at hdescribes
      subst hdescribes
      exact .text s (hclasses cls) (hcontents.trans content) (hkey cls) rfl
  | shape dims cls content fits =>
      simp only [Describes, content] at hdescribes
      subst hdescribes
      exact .shape dims (hclasses cls) (hcontents.trans content) fits (hkey cls) rfl
  | array elems cls content =>
      simp only [Describes, content] at hdescribes
      obtain ⟨data, hdata, rfl⟩ := hdescribes
      exact .array elems (hclasses cls) (hcontents.trans content) (hkey cls) hdata
  | map entries cls content distinct =>
      have hdistinct : entries.Pairwise fun e e' => v.sameKey e.1 e'.1 = false :=
        distinct.imp fun hkeys => (h.asked.sameKey _ _).trans hkeys
      simp only [Describes, content] at hdescribes
      split at hdescribes
      · rename_i keys hkeys
        obtain ⟨data, hdata, rfl⟩ := hdescribes
        refine .strings entries (hclasses cls) (hcontents.trans content) hdistinct (hkey cls)
          ((stringKeys?_asked h.asked entries).trans hkeys) (fun e he a ha => ?_) hdata
        obtain ⟨a', s, ha', htext⟩ := text_of_stringKeys? hkeys he
        obtain rfl := Option.some.inj (ha.symm.trans ha')
        exact (hmade.made a (hheld content (List.mem_flatMap.mpr ⟨e, he, by simp [ha]⟩))).ofClass
          ((h.asked.payload? a).trans htext) rfl
      · obtain ⟨pairs, hpairs, rfl⟩ := hdescribes
        refine .map entries pairs (hclasses cls) (hcontents.trans content) hdistinct (hkey cls) rfl
          (fun e he a ha => ?_) rfl hpairs
        obtain ⟨pair, -, k, n, -, hk, -⟩ := exists_mem_of_forall₂ hpairs.flip he
        rw [ha] at hk
        exact (h.questioned a k hk).1
  | tensor t cls content whole =>
      simp only [Describes, content] at hdescribes
      obtain ⟨saved, hsaved, rfl⟩ := hdescribes
      obtain ⟨data, hdata, rfl⟩ := hostRecord_of_recordOf hsaved
      refine .tensor t data (hclasses cls) (hcontents.trans content) ?_
        ((h.asked.tensorBytes id t).trans hdata) (hkey cls) rfl
      obtain ⟨data', hbytes, hmemory⟩ := whole.memory
      exact ⟨whole.rank, whole.dims, data', (h.asked.tensorBytes id t).trans hbytes, hmemory⟩
  | node schema values cls reflected own distinct content typed =>
      have hplain := World.plainClass?_payload (κ := κ) schema values
      obtain ⟨attrs, texts, hattrs, htexts, rfl⟩ := describes_reflected content hplain hdescribes
      obtain ⟨hboxes, htravels⟩ := questioned_reflected content hplain hquestioned
      have hshown : w.shown id = attrs := by
        rw [World.shown, hattrs]
        rfl
      rw [World.attrs_eq reflected, content] at hattrs
      simp only [Option.map_some, Option.getD_some, Schema.values_payload, Except.ok.injEq] at hattrs
      subst hattrs
      have htyped : List.Forall₂ (fun f x => v.HasType f.type x) schema.visible values := by
        refine forall₂_imp_mem typed fun f x _ hx htype => h.asked.hasType (fun y hy => ?_) htype
        refine h.made.made y (h.asked.below.mp (hheld content ?_))
        rw [Schema.references_payload]
        exact List.mem_filterMap.mpr ⟨x, hx, hy⟩
      have hback : ∀ x, .float x ∈ values → x.ReadsBack := by
        intro x hx
        obtain ⟨a, ha, hvalue⟩ := shows_of_mem (w := w) typed hx
        exact h.floats id hid a (hshown ▸ ha) x hvalue
      have hanswered : ∀ x ∈ values, ∀ y, x.object? = some y → v.Answered y Run.travelClasses := by
        intro x hx y hy
        obtain ⟨a, ha, hvalue⟩ := shows_of_mem (w := w) typed hx
        exact htravels a (hshown ▸ ha) y (by rw [hvalue, World.object?_showField, hy])
      exact .node schema values texts (hclasses cls) ((h.asked.schemaOf? cls).trans reflected) own
        distinct (hcontents.trans content) hboxes (hkey cls) rfl
        (fieldTexts_of_namedTexts htyped htexts hback hanswered)

/-! ## What is saved can be read -/

/-- The numbers and the attributes of a node that describes an object are legible. -/
theorem legible_of_describes (hdescribes : Describes w num id g)
    (hnum : ∀ r n, num r n → n < 2 ^ 64) : Graph.Legible g := by
  have hempty := Graph.tidy_nil
  have hnone : ∀ i ∈ ([] : List Nat), i < 2 ^ 64 := fun _ hi => nomatch hi
  unfold Describes at hdescribes
  split at hdescribes
  · subst hdescribes
    exact ⟨hempty, hnone⟩
  · subst hdescribes
    exact ⟨hempty, hnone⟩
  · obtain ⟨data, hdata, rfl⟩ := hdescribes
    refine ⟨hempty, fun i hi => ?_⟩
    obtain ⟨r, -, hr⟩ := exists_mem_of_forall₂ hdata hi
    exact hnum r i hr
  · split at hdescribes
    · obtain ⟨data, hdata, rfl⟩ := hdescribes
      refine ⟨hempty, fun i hi => ?_⟩
      obtain ⟨e, -, he⟩ := exists_mem_of_forall₂ hdata hi
      exact hnum e.2 i he
    · obtain ⟨pairs, hpairs, rfl⟩ := hdescribes
      refine ⟨hempty, fun i hi => ?_⟩
      obtain ⟨pair, hpair, hmem⟩ := List.mem_flatten.mp hi
      obtain ⟨e, -, k, n, rfl, hk, hn⟩ := exists_mem_of_forall₂ hpairs hpair
      simp only [List.mem_cons, List.not_mem_nil, or_false] at hmem
      rcases hmem with rfl | rfl
      · exact hnum e.1 i hk
      · exact hnum e.2 i hn
  · obtain ⟨saved, -, rfl⟩ := hdescribes
    exact ⟨hempty, hnone⟩
  · obtain ⟨attrs, texts, -, -, rfl⟩ := hdescribes
    exact ⟨NameTable.sorted_ofList_sorted texts, hnone⟩

/-- A saved graph is read back from its text. -/
theorem parse_of_saved (hsaved : Saved w v r graph numbers)
    (hroom : IntKind.usize.Fits graph.nodes.length) : Graph.parse graph.toText = .ok graph := by
  have hbound : graph.nodes.length < 2 ^ 64 := by
    have hmax := hroom.2
    have hgreatest : IntKind.usize.max = 2 ^ 64 - 1 := by decide
    omega
  have hnumber : ∀ r n, Numbered numbers r n → n < 2 ^ 64 := by
    intro r n hn
    cases r with
    | none =>
        rw [show n = 0 from hn]
        decide
    | some id =>
        have hlt := (hsaved.sound.range id n hn).2
        simp only [List.size_toArray] at hlt
        exact Nat.lt_trans hlt hbound
  refine Graph.parse_toText (hnumber r graph.root hsaved.root) (fun g hg => ?_) ?_
  · obtain ⟨n, hn⟩ := List.mem_iff_getElem?.mp hg
    rcases Nat.eq_zero_or_pos n with rfl | hpos
    · obtain rfl := Option.some.inj (hn.symm.trans hsaved.nothing)
      exact ⟨Graph.tidy_nil, fun _ hi => nomatch hi⟩
    · have hlt : n < graph.nodes.length := (List.getElem?_eq_some_iff.mp hn).1
      obtain ⟨id, hid⟩ := hsaved.sound.filled n hpos (by simpa using hlt)
      obtain ⟨⟨g', hg', hdescribes⟩, -⟩ := hsaved.described id n hid
      obtain rfl := Option.some.inj (hn.symm.trans hg')
      exact legible_of_describes hdescribes hnumber
  · rw [hsaved.attrs]
    exact Graph.tidy_singleton _

/-- The nodes of a saved graph spell its objects. -/
theorem spellsAll_of_saved (hmade : w.WellMade r) (hfloats : w.FloatsReadBack r)
    (hsaved : Saved w v r graph numbers) (hroom : IntKind.usize.Fits graph.nodes.length) :
    Loading.SpellsAll v numbers graph.nodes r where
  range := by simpa using hsaved.sound.range
  room := hroom
  injective := hsaved.sound.injective
  acyclic := (hsaved.asked.wellMade hmade).acyclic
  takeable a ha := (hsaved.asked.wellMade hmade).takeable ha
  spells a n ha hn := by
    obtain ⟨⟨g, hg, hdescribes⟩, hquestioned⟩ := hsaved.described a n hn
    have hlegible : Legible w v numbers r :=
      ⟨hsaved.asked, hmade, hfloats, fun a n hn => (hsaved.described a n hn).2⟩
    exact ⟨g, hg, spells_of_describes hlegible (hsaved.asked.below.mp ha) hdescribes hquestioned⟩

end Saving

/-! ## What is loaded is kept -/

/-- What stands for an object holds what stands for the objects that this holds. -/
theorem Build.Ready.localCopy {s : BuildState} {h : Heap κ} {a b : ObjId}
    (hready : Ready w numbers s h) (hregular : w.types.Regular) (hmade : w.IsMade a)
    (hab : Copied w numbers s h a b) : LocalCopy w h (Copied w numbers s h) a b := by
  obtain ⟨hcopy, ⟨n, hn, hdone⟩ | hloose⟩ := hab
  · exact hready.shares a n b hn hdone
  · obtain ⟨o, ho, htype, hpayload⟩ := hcopy.step
    exact ⟨o, ho, htype, hpayload.mono fun _ _ hx _ _ =>
      absurd hx (hloose.not_refers hregular hmade)⟩

/-- Objects of a graph are related to their copies, which are as many as the objects are, but for
strings and boxes, and which are new. -/
structure World.SharingCopy (w : World κ) (r : Ref) (h : Heap κ) (R : ObjId → ObjId → Prop) :
    Prop where
  copying : Copying w h R
  below : ∀ {a b}, R a b → w.Below r a
  oneToOne : ∀ {a b a' b'}, R a b → R a' b' → ¬ w.IsLoose a → ¬ w.IsLoose a' → (a = a' ↔ b = b')
  grown : Grown w.heap h
  apart : ∀ {a b}, R a b → w.heap.cells.size ≤ b.index

/-- What stands for an object of the graph and is there when other references have been given up. -/
def Build.Kept (w : World κ) (r : Ref) (numbers : List (ObjId × Nat)) (s : BuildState)
    (h h' : Heap κ) (a b : ObjId) : Prop :=
  (w.Below r a ∧ Copied w numbers s h a b) ∧ w.heap.cells.size ≤ b.index ∧ ∃ o, h'.get? b = some o

theorem Build.Ready.sharingCopy {nodes : List GraphNode} {s : BuildState} {h h' : Heap κ}
    {keep : List ObjId} (hready : Ready w numbers s h) (hall : Loading.SpellsAll w numbers nodes r)
    (hkept : Backed h' w.heap.cells.size keep) (hsame : Grown h' h) (hgrown : Grown w.heap h') :
    w.SharingCopy r h' (Build.Kept w r numbers s h h') where
  copying := by
    rintro a b ⟨⟨hbelow, hab⟩, hbase, o', ho'⟩
    obtain ⟨o, ho, htype, hpayload⟩ :=
      hready.localCopy (hall.takeable a hbelow).1 (hall.takeable a hbelow).2.1 hab
    obtain ⟨n, hn⟩ := hsame b o' ho'
    obtain rfl := Option.some.inj (hn.symm.trans ho)
    refine ⟨o', ho', htype, hpayload.mono fun x y hx hy hxy => ?_⟩
    obtain ⟨top, htop, hreach⟩ := hbelow
    exact ⟨⟨⟨top, htop, hreach.tail hx⟩, hxy⟩, hkept.alive_of_reference ho' hbase hy⟩
  below hab := hab.1.1
  oneToOne := by
    rintro a b a' b' ⟨⟨-, hab⟩, -⟩ ⟨⟨-, hab'⟩, -⟩ hloose hloose'
    obtain ⟨n, hn, hdone⟩ := hab.2.resolve_right hloose
    obtain ⟨n', hn', hdone'⟩ := hab'.2.resolve_right hloose'
    constructor
    · rintro rfl
      obtain rfl := Option.some.inj (hn.symm.trans hn')
      exact Option.some.inj (Option.some.inj (hdone.symm.trans hdone'))
    · rintro rfl
      obtain rfl := hready.distinct n n' b hdone hdone'
      exact hall.injective a a' n hn hn'
  grown := hgrown
  apart hab := hab.2.1

/-- What an operation has made is kept when it gives up all other references. -/
theorem Build.run_of_makes {body : Build κ Ref} {nodes : List GraphNode}
    (hall : Loading.SpellsAll w numbers nodes r)
    (hmakes : Build.Makes w numbers body ⟨[], [], []⟩ w.heap
      fun s h r' => RefRel (Copied w numbers s h) r r' ∧ ∀ b, r' = some b → b ∈ s.held) :
    ∃ r' h' R, Build.run body w = (.ok r', w.withHeap h') ∧ w.SharingCopy r h' R ∧
      RefRel R r r' := by
  obtain ⟨r', s, h, hrun, hready, -, hcopied, hheld⟩ := hmakes
  have hrun' : body ⟨[], [], []⟩ w = ((.ok r', s), w.withHeap h) := hrun
  have hmem : ∀ b ∈ r'.toList, b ∈ s.held := fun b hb => hheld b (Option.mem_toList.mp hb)
  have hbacked : Backed (h.retainAll r'.toList) w.heap.cells.size (s.held ++ r'.toList) :=
    (hready.backed.retainAll hmem).mono fun x => Nat.le_of_eq (List.perm_append_comm.count_eq x)
  have hsame : Grown (s.held.foldl Heap.release (h.retainAll r'.toList)) h :=
    (Heap.grown_of_releases _ _).trans
      (Heap.grown_of_retainAll fun x hx => (hready.backed.alive_of_mem (hmem x hx)).2)
  have hgrown : Grown w.heap (s.held.foldl Heap.release (h.retainAll r'.toList)) := by
    intro x o ho
    rw [hbacked.get?_releases (Heap.lt_size_of_get? ho)]
    exact (hready.grown.trans (Heap.grown_retainAll h r'.toList)) x o ho
  refine ⟨r', _, _, ?_, hready.sharingCopy hall hbacked.releases hsame hgrown, ?_⟩
  · simp only [Build.run, hrun']
    rfl
  · refine hcopied.mono fun a b ha hb hab => ?_
    exact ⟨⟨⟨a, ha, .refl⟩, hab⟩, hbacked.releases.alive_of_mem (Option.mem_toList.mpr hb)⟩

/-- A graph whose nodes spell objects is loaded as a copy that shares what it shares. -/
theorem loadGraph_sharing (hall : Loading.SpellsAll w numbers graph.nodes r)
    (hroot : Saving.Numbered numbers r graph.root) :
    ∃ r' h' R, loadGraph graph w = (.ok r', w.withHeap h') ∧ w.SharingCopy r h' R ∧
      RefRel R r r' := by
  have hrange : graph.root < max graph.nodes.length 1 := by
    cases r with
    | none =>
        rw [show graph.root = 0 from hroot]
        omega
    | some a =>
        have := (hall.range a graph.root hroot).2
        omega
  have hready : Ready w numbers ⟨[], [], []⟩ w.heap :=
    ⟨.refl _, Nat.le_refl _, .start _, fun _ _ h => (nomatch h), fun _ _ _ h => (nomatch h),
      fun _ _ _ _ h => (nomatch h), fun _ h => (nomatch h)⟩
  have hmakes := Loading.makes_resolve hall graph.nodes.length ⟨[], [], []⟩ w.heap r graph.root
    hready hroot (fun a ha => ⟨a, ha, .refl⟩) (.start w numbers r) (Nat.le_refl _)
  rw [loadGraph, if_neg (Nat.not_le.mpr hrange)]
  exact Build.run_of_makes hall (hmakes.imp fun r' _ _ _ hr' => ⟨hr'.copied, hr'.held⟩)

/-- A graph whose nodes spell objects is loaded as a copy of its root. -/
theorem loadGraph_of_spellsAll (hall : Loading.SpellsAll w numbers graph.nodes r)
    (hroot : Saving.Numbered numbers r graph.root) :
    ∃ r' h', loadGraph graph w = (.ok r', w.withHeap h') ∧ RefRel (CopyOf w h') r r' := by
  obtain ⟨r', h', R, hload, hcopies, hrel⟩ := loadGraph_sharing hall hroot
  exact ⟨r', h', hload, hrel.mono fun a b _ _ hab => ⟨R, hab, hcopies.copying⟩⟩

/-! ## Saving and loading -/

/-- Objects with a string, a number and a data type. -/
def labelSchema : Schema :=
  ⟨.leaf "test.Label", .tree,
    [⟨"text", .ref .string, .use⟩, ⟨"weight", .f64, .use⟩, ⟨"kind", .dataType, .use⟩]⟩

/-- A map from a string to an array, which holds a shape twice, nothing, and a node with the
string. -/
def sharedShape : World Unit :=
  { (World.initial : World Unit) with
    types := (ObjectClass.builtins ++ [labelSchema.cls]).foldl (fun t c => (t.touch c).2) .initial
    schemas := [(11, labelSchema)]
    heap := ⟨#[some ⟨3, 2, .text "k"⟩, some ⟨6, 2, .shape [2, 3]⟩,
      some ⟨11, 1, .node [.object .object ⟨0⟩, .float (Double.ofInt 2), .dataType ⟨2, 32, 4⟩]⟩,
      some ⟨4, 1, .array [some ⟨1⟩, none, some ⟨2⟩, some ⟨1⟩]⟩,
      some ⟨5, 1, .map [(some ⟨0⟩, some ⟨3⟩)]⟩], []⟩ }

theorem sharedShape_isOrdered : sharedShape.isOrdered = true := by decide +kernel

theorem sharedShape_below (hid : sharedShape.Below (some ⟨4⟩) id) : id.index < 5 := by
  obtain ⟨a, ha, hreach⟩ := hid
  cases ha
  exact Nat.lt_succ_of_le (World.le_of_reaches sharedShape_isOrdered hreach)

theorem sharedShape_wellMade : sharedShape.WellMade (some ⟨4⟩) where
  regular := by
    refine TypeTable.Regular.initial.touchAll fun c hc => ?_
    rcases List.mem_append.mp hc with hc | hc
    · exact ObjectClass.rightful_of_mem_builtins hc
    · cases List.mem_singleton.mp hc
      exact ⟨trivial, fun index hclaim => nomatch hclaim⟩
  made id hid := by
    obtain ⟨i⟩ := id
    have hi : i < 5 := sharedShape_below hid
    interval_cases i
    · exact .text "k" rfl rfl
    · exact .shape [2, 3] rfl rfl (by decide)
    · have hstring : sharedShape.HasRefType .string ⟨0⟩ := by
        refine ⟨by decide +kernel, fun first hfirst => ?_⟩
        obtain rfl : 3 = first := Option.some.inj hfirst
        decide +kernel
      refine .node labelSchema [.object .object ⟨0⟩, .float (Double.ofInt 2), .dataType ⟨2, 32, 4⟩] rfl
        (by decide +kernel) (by decide) (by decide) rfl ?_
      have hkind : (⟨2, 32, 4⟩ : DataType).Nameable := by decide
      exact .cons (.inr ⟨_, rfl, hstring⟩) (.cons trivial (.cons hkind .nil))
    · exact .array _ rfl rfl
    · exact .map _ rfl rfl (List.pairwise_singleton _ _)
  acyclic a _ := World.acyclicAt_of_isOrdered sharedShape_isOrdered a

theorem sharedShape_float (hid : sharedShape.Below (some ⟨4⟩) id) {a : Attr}
    (ha : a ∈ sharedShape.shown id) {x : Double} (hx : a.value = .float x) : x = Double.ofInt 2 := by
  obtain ⟨i⟩ := id
  have hi : i < 5 := sharedShape_below hid
  have hshown : ∀ i < 5, ∀ a ∈ sharedShape.shown ⟨i⟩, a.value = .object .object ⟨0⟩ ∨
      a.value = .float (Double.ofInt 2) ∨ a.value = .dataType ⟨2, 32, 4⟩ := by decide +kernel
  rcases hshown i hi a ha with h | h | h
  · cases hx.symm.trans h
  · cases hx.symm.trans h
    rfl
  · cases hx.symm.trans h

theorem sharedShape_floatsReadBack : sharedShape.FloatsReadBack (some ⟨4⟩) := by
  intro id hid a ha x hx
  rw [sharedShape_float hid ha hx]
  exact fun _ => by decide +kernel

end ObjectRuntime

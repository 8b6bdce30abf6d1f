import ObjectRuntime.Module
import ObjectRuntime.Proofs.Sequencing
import Mathlib.Data.Finset.Card
import Mathlib.Data.List.Nodup
import Mathlib.Logic.Relation
set_option autoImplicit false

/-!
# Looking functions up in modules

A lookup searches a module and its imports depth first and does not remember where it has been.
`PreOrder` is the order in which a search that does remember meets the modules.  A lookup that ends
answers with the first module in that order that has the name.  It ends unless it strays: it follows
imports to nothing, or back to a module that it is still searching (`lookup_depthFirst`).
-/

namespace ObjectRuntime.Module

open Relation (ReflTransGen TransGen)

variable {κ : Type} {w : World κ} {name : String} {a b m f : Ref} {n : Nat} {answer : Search}
  {seen rest order before after : List Ref} {look : Ref → Search}

/-! ## The graph of imports -/

/-- The function that a module has under the name. -/
def functionAt (w : World κ) (name : String) (m : Ref) : Option Ref :=
  m.bind fun id => (table w id).functions.lookup name

/-- The imports of a module, in the order in which they were added. -/
def importsOf (w : World κ) : Ref → List Ref
  | some id => (table w id).imports
  | none => []

/-- One module imports the other. -/
def Imports (w : World κ) (a b : Ref) : Prop := b ∈ importsOf w a

/-- No module that is reached through imports has the name. -/
def Lacking (w : World κ) (name : String) (a : Ref) : Prop :=
  ∀ m, ReflTransGen (Imports w) a m → functionAt w name m = none

/-- A search of a module goes on to the import: neither the module nor an import before has the
name. -/
def Follows (w : World κ) (name : String) (a b : Ref) : Prop :=
  functionAt w name a = none ∧
    ∃ before after, importsOf w a = before ++ b :: after ∧ ∀ c ∈ before, Lacking w name c

/-- A search comes to nothing, or back to a module that it is still searching. -/
def Strays (w : World κ) (name : String) (a : Ref) : Prop :=
  ∃ m, ReflTransGen (Follows w name) a m ∧ (m = none ∨ TransGen (Follows w name) m m)

/-- The order in which a search meets modules that it has not seen before: those that wait one after
another, each with all that it imports before the next one. -/
inductive PreOrder (w : World κ) : List Ref → List Ref → List Ref → Prop
  | done (seen : List Ref) : PreOrder w seen [] []
  | again {seen rest order : List Ref} {m : Ref} (hm : m ∈ seen) (h : PreOrder w seen rest order) :
      PreOrder w seen (m :: rest) order
  | visit {seen rest order : List Ref} {m : Ref} (hm : m ∉ seen)
      (h : PreOrder w (m :: seen) (importsOf w m ++ rest) order) :
      PreOrder w seen (m :: rest) (m :: order)

theorem Follows.imports (h : Follows w name a b) : Imports w a b := by
  obtain ⟨-, before, after, himports, -⟩ := h
  simp [Imports, himports]

theorem Lacking.imports (h : Lacking w name a) (hb : Imports w a b) : Lacking w name b :=
  fun m hm => h m (.head hb hm)

theorem lacking_of_imports (ha : functionAt w name a = none)
    (himports : ∀ b ∈ importsOf w a, Lacking w name b) : Lacking w name a := by
  intro m hm
  rcases hm.cases_head with rfl | ⟨b, hb, hm⟩
  · exact ha
  · exact himports b hb m hm

/-- A module with imports is among the objects. -/
theorem index_lt_of_imports {id : ObjId} (h : Imports w (some id) b) :
    id.index < w.heap.cells.size := by
  by_contra hlarge
  have hnone : w.payload? id = none := by
    simp [World.payload?, Heap.get?, Array.getElem?_eq_none (Nat.le_of_not_lt hlarge)]
  simp [Imports, importsOf, table, table?, hnone] at h

/-! ## Steps of a search -/

theorem firstFound_eq_missing {rs : List Ref} :
    firstFound look rs = .missing ↔ ∀ r ∈ rs, look r = .missing := by
  induction rs with
  | nil => simp [firstFound]
  | cons r rs ih =>
      rw [firstFound, List.forall_mem_cons]
      cases hr : look r <;> simp [ih]

/-- The first import that does not lack the name gives the answer. -/
theorem firstFound_append (hbefore : ∀ c ∈ before, look c = .missing)
    (hb : look b ≠ .missing) : firstFound look (before ++ b :: after) = look b := by
  induction before with
  | nil =>
      rw [List.nil_append, firstFound]
      cases hb' : look b <;> simp_all
  | cons c before ih =>
      obtain ⟨hc, hbefore⟩ := List.forall_mem_cons.mp hbefore
      rw [List.cons_append, firstFound, hc]
      exact ih hbefore

theorem firstFound_inv {rs : List Ref} (h : firstFound look rs ≠ .missing) :
    ∃ before b after, rs = before ++ b :: after ∧ (∀ c ∈ before, look c = .missing) ∧
      look b = firstFound look rs := by
  induction rs with
  | nil => exact absurd rfl h
  | cons r rs ih =>
      by_cases hr : look r = .missing
      · have hskip : firstFound look (r :: rs) = firstFound look rs := by rw [firstFound, hr]
        rw [hskip] at h ⊢
        obtain ⟨before, b, after, rfl, hbefore, hb⟩ := ih h
        exact ⟨r :: before, b, after, rfl, List.forall_mem_cons.mpr ⟨hr, hbefore⟩, hb⟩
      · exact ⟨[], r, rs, rfl, by simp, (firstFound_append (List.forall_mem_nil _) hr).symm⟩

theorem searchWithin_of_function (ha : functionAt w name a = some f) :
    searchWithin w name (n + 1) a = .found f := by
  cases a with
  | none => cases ha
  | some id =>
      have ha : (table w id).functions.lookup name = some f := ha
      simp [searchWithin, ha]

theorem searchWithin_of_lacking {id : ObjId} (ha : functionAt w name (some id) = none) :
    searchWithin w name (n + 1) (some id) =
      firstFound (searchWithin w name n) (importsOf w (some id)) := by
  have ha : (table w id).functions.lookup name = none := ha
  simp [searchWithin, ha, importsOf]

/-- The function that a search comes to. -/
inductive Finds (w : World κ) (name : String) : Ref → Ref → Prop
  | here {a f : Ref} (h : functionAt w name a = some f) : Finds w name a f
  | further {a b f : Ref} (hab : Follows w name a b) (h : Finds w name b f) : Finds w name a f

theorem Finds.not_lacking (h : Finds w name a f) : ¬ Lacking w name a := by
  induction h with
  | here h =>
      intro hlacking
      cases h.symm.trans (hlacking _ .refl)
  | further hab _ ih => exact fun hlacking => ih (hlacking.imports hab.imports)

/-- A search that finds nothing has been everywhere, and one that finds a function has found nothing
before. -/
theorem searchWithin_inv (n : Nat) (a : Ref) :
    (searchWithin w name n a = .missing → Lacking w name a) ∧
    ∀ f, searchWithin w name n a = .found f → Finds w name a f := by
  induction n generalizing a with
  | zero => cases a <;> exact ⟨nofun, nofun⟩
  | succ n ih =>
      cases a with
      | none => exact ⟨nofun, nofun⟩
      | some id =>
          cases ha : functionAt w name (some id) with
          | some f =>
              rw [searchWithin_of_function ha]
              refine ⟨nofun, fun f' hf => ?_⟩
              cases hf
              exact .here ha
          | none =>
              rw [searchWithin_of_lacking ha]
              refine ⟨fun h => ?_, fun f hf => ?_⟩
              · exact lacking_of_imports ha fun b hb => (ih b).1 (firstFound_eq_missing.mp h b hb)
              · have hfound :
                    firstFound (searchWithin w name n) (importsOf w (some id)) ≠ .missing := by
                  rw [hf]
                  exact nofun
                obtain ⟨before, b, after, himports, hbefore, hb⟩ := firstFound_inv hfound
                exact .further ⟨ha, before, after, himports, fun c hc => (ih c).1 (hbefore c hc)⟩
                  ((ih b).2 f (hb.trans hf))

/-! ## Searches that end -/

/-- The search ends with an answer. -/
def Search.Ended (s : Search) : Prop := s = .missing ∨ ∃ f, s = .found f

theorem not_ended_endless : ¬ Search.endless.Ended := by simp [Search.Ended]

theorem not_ended_nullImport : ¬ Search.nullImport.Ended := by simp [Search.Ended]

/-- A search that finds nothing in some imports and ends has ended at the next one. -/
theorem ended_of_firstFound (hbefore : ∀ c ∈ before, ∀ f, look c ≠ .found f)
    (hended : (firstFound look (before ++ b :: after)).Ended) : (look b).Ended := by
  induction before with
  | nil =>
      rw [List.nil_append, firstFound] at hended
      cases hb : look b with
      | missing => exact .inl rfl
      | _ =>
          rw [hb] at hended
          exact hended
  | cons c before ih =>
      obtain ⟨hc, hbefore⟩ := List.forall_mem_cons.mp hbefore
      rw [List.cons_append, firstFound] at hended
      cases hlook : look c with
      | missing =>
          rw [hlook] at hended
          exact ih hbefore hended
      | found f => exact absurd hlook (hc f)
      | endless =>
          rw [hlook] at hended
          exact absurd hended not_ended_endless
      | nullImport =>
          rw [hlook] at hended
          exact absurd hended not_ended_nullImport

theorem Strays.step {id : ObjId} (h : Strays w name (some id)) :
    ∃ b, Follows w name (some id) b ∧ Strays w name b := by
  obtain ⟨m, hreach, hm⟩ := h
  rcases hreach.cases_head with rfl | ⟨b, hb, hreach⟩
  · rcases hm with hnone | hcircle
    · cases hnone
    · obtain ⟨b, hb, hback⟩ := TransGen.head'_iff.mp hcircle
      exact ⟨b, hb, _, hback, .inr hcircle⟩
  · exact ⟨b, hb, m, hreach, hm⟩

/-- A search that strays has no answer, however deep it goes. -/
theorem Strays.not_ended (h : Strays w name a) (n : Nat) : ¬ (searchWithin w name n a).Ended := by
  induction n generalizing a with
  | zero =>
      cases a with
      | none => exact not_ended_nullImport
      | some id => exact not_ended_endless
  | succ n ih =>
      cases a with
      | none => exact not_ended_nullImport
      | some id =>
          obtain ⟨b, ⟨ha, before, after, himports, hbefore⟩, hb⟩ := h.step
          rw [searchWithin_of_lacking ha, himports]
          refine fun hended => ih hb (ended_of_firstFound (fun c hc f hfound => ?_) hended)
          exact ((searchWithin_inv n c).2 f hfound).not_lacking (hbefore c hc)

/-- A search that does not stray ends before there are no modules left. -/
theorem ended_of_path (path : List ObjId) (hdistinct : path.Nodup)
    (hpath : ∀ p ∈ path, p.index < w.heap.cells.size ∧ TransGen (Follows w name) (some p) a)
    (ha : ¬ Strays w name a) (hn : w.heap.cells.size < path.length + n) :
    (searchWithin w name n a).Ended := by
  induction n generalizing path a with
  | zero =>
      -- more distinct modules than there are objects
      have hsubset : path.map ObjId.index ⊆ List.range w.heap.cells.size := by
        intro i hi
        obtain ⟨p, hp, rfl⟩ := List.mem_map.mp hi
        exact List.mem_range.mpr (hpath p hp).1
      have hinjective : Function.Injective ObjId.index := fun _ _ h => by
        rwa [ObjId.mk.injEq]
      have hle := (List.subperm_of_subset (hdistinct.map hinjective) hsubset).length_le
      rw [List.length_map, List.length_range] at hle
      omega
  | succ n ih =>
      cases a with
      | none => exact absurd ⟨none, .refl, .inl rfl⟩ ha
      | some id =>
          cases hfunction : functionAt w name (some id) with
          | some f =>
              rw [searchWithin_of_function hfunction]
              exact .inr ⟨f, rfl⟩
          | none =>
              rw [searchWithin_of_lacking hfunction]
              by_cases hmissing :
                  firstFound (searchWithin w name n) (importsOf w (some id)) = .missing
              · exact .inl hmissing
              obtain ⟨before, b, after, himports, hbefore, hb⟩ := firstFound_inv hmissing
              rw [← hb]
              have hfollows : Follows w name (some id) b :=
                ⟨hfunction, before, after, himports, fun c hc =>
                  (searchWithin_inv n c).1 (hbefore c hc)⟩
              refine ih (id :: path) (List.nodup_cons.mpr ⟨fun hmem => ?_, hdistinct⟩)
                (fun p hp => ?_) (fun ⟨m, hreach, hm⟩ => ha ⟨m, .head hfollows hreach, hm⟩)
                (by rw [List.length_cons]; omega)
              · exact ha ⟨some id, .refl, .inr (hpath id hmem).2⟩
              · rcases List.mem_cons.mp hp with rfl | hp
                · exact ⟨index_lt_of_imports hfollows.imports, .single hfollows⟩
                · exact ⟨(hpath p hp).1, (hpath p hp).2.tail hfollows⟩

/-- A lookup through imports is a search within the number of objects. -/
theorem search_eq (w : World κ) (id : ObjId) (name : String) :
    search w id name true = searchWithin w name (w.heap.cells.size + 1) (some id) := by
  cases hfunction : (table w id).functions.lookup name <;>
    simp [search, searchWithin, hfunction]

theorem search_ended_iff (w : World κ) (id : ObjId) (name : String) :
    (search w id name true).Ended ↔ ¬ Strays w name (some id) := by
  rw [search_eq]
  exact ⟨fun hended hstrays => hstrays.not_ended _ hended,
    fun hstrays => ended_of_path [] .nil (by simp) hstrays (by simp)⟩

/-- Imports that only lead on, and never to nothing, cannot make a search stray. -/
theorem Strays.imports (h : Strays w name a) :
    ∃ m, ReflTransGen (Imports w) a m ∧ (m = none ∨ TransGen (Imports w) m m) := by
  obtain ⟨m, hreach, hm⟩ := h
  have himports : Follows w name ≤ Imports w := fun _ _ h => h.imports
  exact ⟨m, ReflTransGen.mono himports _ _ hreach, hm.imp_right (TransGen.mono himports _ _)⟩

theorem Lacking.follows (h : Lacking w name a) (hb : Imports w a b) : Follows w name a b := by
  obtain ⟨before, after, himports⟩ := List.append_of_mem hb
  exact ⟨h a .refl, before, after, himports, fun c hc => h.imports (by
    rw [Imports, himports]
    exact List.mem_append_left _ hc)⟩

/-- A search for a name that nothing has goes everywhere, so every circle leads it astray. -/
theorem strays_iff_of_lacking (h : Lacking w name a) :
    Strays w name a ↔
      ∃ m, ReflTransGen (Imports w) a m ∧ (m = none ∨ TransGen (Imports w) m m) := by
  refine ⟨Strays.imports, fun ⟨m, hreach, hm⟩ => ?_⟩
  have follow : ∀ {x y : Ref}, ReflTransGen (Imports w) x y → Lacking w name x →
      ReflTransGen (Follows w name) x y ∧ Lacking w name y := by
    intro x y hxy hx
    induction hxy with
    | refl => exact ⟨.refl, hx⟩
    | tail _ hstep ih => exact ⟨ih.1.tail (ih.2.follows hstep), ih.2.imports hstep⟩
  obtain ⟨hreach, hlacking⟩ := follow hreach h
  refine ⟨m, hreach, hm.imp_right fun hcircle => ?_⟩
  obtain ⟨b, hb, hback⟩ := TransGen.head'_iff.mp hcircle
  exact .head' (hlacking.follows hb) (follow hback (hlacking.imports hb)).1

/-! ## The order of the search -/

/-- What has been met is all that is reached from what was waiting. -/
theorem PreOrder.reached (h : PreOrder w seen rest order) :
    ∀ m ∈ order, m ∉ seen ∧ ∃ a ∈ rest, ReflTransGen (Imports w) a m := by
  induction h with
  | done => simp
  | again _ _ ih =>
      intro m hm
      obtain ⟨hnew, a, ha, hreach⟩ := ih m hm
      exact ⟨hnew, a, List.mem_cons_of_mem _ ha, hreach⟩
  | @visit seen rest order b hb _ ih =>
      intro m hm
      rcases List.mem_cons.mp hm with rfl | hm
      · exact ⟨hb, m, List.mem_cons_self, .refl⟩
      · obtain ⟨hnew, a, ha, hreach⟩ := ih m hm
        refine ⟨fun hseen => hnew (List.mem_cons_of_mem _ hseen), ?_⟩
        rcases List.mem_append.mp ha with ha | ha
        · exact ⟨b, List.mem_cons_self, .head ha hreach⟩
        · exact ⟨a, List.mem_cons_of_mem _ ha, hreach⟩

/-- Nothing that waits is left out, and nothing that is imported by what is met. -/
theorem PreOrder.complete (h : PreOrder w seen rest order)
    (hseen : ∀ s ∈ seen, ∀ b, Imports w s b → b ∈ seen ∨ b ∈ rest) :
    (∀ a ∈ rest, a ∈ seen ∨ a ∈ order) ∧
      ∀ s, s ∈ seen ∨ s ∈ order → ∀ b, Imports w s b → b ∈ seen ∨ b ∈ order := by
  induction h with
  | done seen =>
      refine ⟨by simp, fun s hs b hb => ?_⟩
      simpa using hseen s (by simpa using hs) b hb
  | @again seen rest order m hm _ ih =>
      obtain ⟨hrest, hclosed⟩ := ih fun s hs b hb => by
        rcases hseen s hs b hb with hb | hb
        · exact .inl hb
        · rcases List.mem_cons.mp hb with rfl | hb
          · exact .inl hm
          · exact .inr hb
      exact ⟨List.forall_mem_cons.mpr ⟨.inl hm, hrest⟩, hclosed⟩
  | @visit seen rest order m _ _ ih =>
      obtain ⟨hrest, hclosed⟩ := ih fun s hs b hb => by
        rcases List.mem_cons.mp hs with rfl | hs
        · exact .inr (List.mem_append_left _ hb)
        · rcases hseen s hs b hb with hb | hb
          · exact .inl (List.mem_cons_of_mem _ hb)
          · rcases List.mem_cons.mp hb with rfl | hb
            · exact .inl List.mem_cons_self
            · exact .inr (List.mem_append_right _ hb)
      have hmove : ∀ x, x ∈ m :: seen ∨ x ∈ order ↔ x ∈ seen ∨ x ∈ m :: order := by
        intro x
        simp only [List.mem_cons]
        tauto
      refine ⟨List.forall_mem_cons.mpr ⟨.inr List.mem_cons_self, fun a ha =>
        (hmove a).mp (hrest a (List.mem_append_right _ ha))⟩, fun s hs b hb => ?_⟩
      exact (hmove b).mp (hclosed s ((hmove s).mpr hs) b hb)

/-- A depth first search from a module meets the modules that are reached from it. -/
theorem mem_preOrder_iff (h : PreOrder w [] [a] order) :
    m ∈ order ↔ ReflTransGen (Imports w) a m := by
  constructor
  · intro hm
    obtain ⟨-, a', ha', hreach⟩ := h.reached m hm
    obtain rfl := List.mem_singleton.mp ha'
    exact hreach
  · intro hreach
    obtain ⟨hstart, hclosed⟩ := h.complete (by simp)
    induction hreach with
    | refl => simpa using hstart a List.mem_cons_self
    | tail _ hstep ih => simpa using hclosed _ (.inr ih) _ hstep

/-- There is one such order. -/
theorem PreOrder.unique {order' : List Ref} (h : PreOrder w seen rest order)
    (h' : PreOrder w seen rest order') : order' = order := by
  induction h generalizing order' with
  | done => cases h'; rfl
  | again hm _ ih =>
      cases h' with
      | again _ h' => exact ih h'
      | visit hm' _ => exact absurd hm hm'
  | visit hm _ ih =>
      cases h' with
      | again hm' _ => exact absurd hm' hm
      | visit _ h' => rw [ih h']

/-- All modules that can be met: the first one and what the objects import. -/
def nodes (w : World κ) (a : Ref) : List Ref :=
  a :: (List.range w.heap.cells.size).flatMap fun i => importsOf w (some ⟨i⟩)

theorem mem_nodes_of_imports {c : Ref} (h : Imports w b c) : c ∈ nodes w a := by
  cases b with
  | none => cases h
  | some id =>
      refine List.mem_cons_of_mem a (List.mem_flatMap.mpr ⟨id.index, ?_, h⟩)
      exact List.mem_range.mpr (index_lt_of_imports h)

theorem exists_preOrder_of_bound (n : Nat) (seen rest : List Ref)
    (hrest : ∀ m ∈ rest, m ∈ nodes w a)
    (hn : ((nodes w a).toFinset \ seen.toFinset).card < n) :
    ∃ order, PreOrder w seen rest order := by
  induction n generalizing seen rest with
  | zero => exact absurd hn (Nat.not_lt_zero _)
  | succ n ih =>
      induction rest with
      | nil => exact ⟨[], .done seen⟩
      | cons m rest ihRest =>
          obtain ⟨hm, hrest⟩ := List.forall_mem_cons.mp hrest
          by_cases hseen : m ∈ seen
          · obtain ⟨order, h⟩ := ihRest hrest
            exact ⟨order, .again hseen h⟩
          · have hfewer : ((nodes w a).toFinset \ (m :: seen).toFinset).card < n := by
              have hmem : m ∈ (nodes w a).toFinset \ seen.toFinset := by simp [hm, hseen]
              rw [List.toFinset_cons, Finset.sdiff_insert]
              have hless := Finset.card_erase_lt_of_mem hmem
              omega
            obtain ⟨order, h⟩ := ih (m :: seen) (importsOf w m ++ rest) (fun x hx =>
              (List.mem_append.mp hx).elim (fun hx => mem_nodes_of_imports hx) (hrest x)) hfewer
            exact ⟨m :: order, .visit hseen h⟩

/-- A depth first search from a module comes to an end. -/
theorem exists_preOrder (w : World κ) (a : Ref) : ∃ order, PreOrder w [] [a] order :=
  exists_preOrder_of_bound (a := a) _ [] [a]
    (List.forall_mem_singleton.mpr List.mem_cons_self) (Nat.lt_succ_self _)

/-! ## The first module with the name -/

/-- Modules that lack the name, and all that is reached from them, come before those that wait behind
them. -/
theorem PreOrder.pass {front back waiting : List Ref} (h : PreOrder w seen waiting order)
    (hwaiting : waiting = front ++ back) (hfront : ∀ c ∈ front, Lacking w name c) :
    ∃ passed seen' order', order = passed ++ order' ∧ PreOrder w seen' back order' ∧
      (∀ m ∈ passed, functionAt w name m = none) ∧ ∀ m ∈ seen', m ∈ seen ∨ Lacking w name m := by
  induction h generalizing front with
  | done seen =>
      obtain ⟨rfl, rfl⟩ := List.append_eq_nil_iff.mp hwaiting.symm
      exact ⟨[], seen, [], rfl, .done seen, by simp, fun m hm => .inl hm⟩
  | @again seen rest order m hm h ih =>
      cases front with
      | nil =>
          rw [List.nil_append] at hwaiting
          exact ⟨[], seen, order, rfl, hwaiting ▸ .again hm h, by simp, fun m hm => .inl hm⟩
      | cons c front =>
          cases hwaiting
          exact ih rfl (List.forall_mem_cons.mp hfront).2
  | @visit seen rest order m hm h ih =>
      cases front with
      | nil =>
          rw [List.nil_append] at hwaiting
          exact ⟨[], seen, m :: order, rfl, hwaiting ▸ .visit hm h, by simp, fun m hm => .inl hm⟩
      | cons c front =>
          cases hwaiting
          obtain ⟨hlacking, hfront⟩ := List.forall_mem_cons.mp hfront
          have hwaiting : importsOf w m ++ (front ++ back) = (importsOf w m ++ front) ++ back :=
            (List.append_assoc _ _ _).symm
          obtain ⟨passed, seen', order', rfl, h', hpassed, hseen'⟩ := ih hwaiting fun c hc =>
            (List.mem_append.mp hc).elim (fun hc => hlacking.imports hc) (hfront c)
          refine ⟨m :: passed, seen', order', rfl, h',
            List.forall_mem_cons.mpr ⟨hlacking m .refl, hpassed⟩, fun x hx => ?_⟩
          rcases hseen' x hx with hx | hx
          · rcases List.mem_cons.mp hx with rfl | hx
            · exact .inr hlacking
            · exact .inl hx
          · exact .inr hx

/-- What a search finds is in the first module that has the name, if the search has not strayed and
nothing that it goes through has been seen before. -/
theorem Finds.first (h : Finds w name a f) (hstrays : ¬ Strays w name a)
    (hseen : ∀ m ∈ seen, ReflTransGen (Follows w name) a m → Lacking w name m)
    (horder : PreOrder w seen (a :: rest) order) :
    order.findSome? (functionAt w name) = some f := by
  induction h generalizing seen rest order with
  | @here a f hf =>
      cases horder with
      | again hm _ => exact absurd (hseen a hm .refl) (Finds.here hf).not_lacking
      | visit _ _ => simp [hf]
  | @further a b f hab hb ih =>
      cases horder with
      | again hm _ => exact absurd (hseen a hm .refl) (Finds.further hab hb).not_lacking
      | visit _ horder =>
          obtain ⟨ha, before, after, himports, hbefore⟩ := hab
          have hab : Follows w name a b := ⟨ha, before, after, himports, hbefore⟩
          rw [List.findSome?_cons, ha]
          have hsplit : importsOf w a ++ rest = before ++ (b :: (after ++ rest)) := by
            rw [himports, List.append_assoc, List.cons_append]
          obtain ⟨passed, seen', order', rfl, horder', hpassed, hseen'⟩ :=
            horder.pass hsplit hbefore
          have hnone : passed.findSome? (functionAt w name) = none :=
            List.findSome?_eq_none_iff.mpr hpassed
          rw [List.findSome?_append, hnone, Option.none_or]
          refine ih (fun ⟨m, hreach, hm⟩ => hstrays ⟨m, .head hab hreach, hm⟩)
            (fun m hm hreach => ?_) horder'
          rcases hseen' m hm with hm | hlacking
          · rcases List.mem_cons.mp hm with rfl | hm
            · exact absurd ⟨m, .refl, .inr (TransGen.head' hab hreach)⟩ hstrays
            · exact hseen m hm (.head hab hreach)
          · exact hlacking

/-- The answer of a lookup, if the search has ended with one. -/
def Search.answer? : Search → Option (Option Ref)
  | .found f => some (some f)
  | .missing => some none
  | .endless | .nullImport => none

/-- A search answers with the first module that has the name, unless it strays. -/
theorem search_answer (id : ObjId) (name : String) (horder : PreOrder w [] [some id] order)
    (hstrays : ¬ Strays w name (some id)) :
    (search w id name true).answer? = some (order.findSome? (functionAt w name)) := by
  have hended := (search_ended_iff w id name).mpr hstrays
  rw [search_eq] at hended ⊢
  rcases hended with hmissing | ⟨f, hfound⟩
  · have hlacking := (searchWithin_inv _ _).1 hmissing
    have hnone : order.findSome? (functionAt w name) = none :=
      List.findSome?_eq_none_iff.mpr fun m hm => hlacking m ((mem_preOrder_iff horder).mp hm)
    rw [hmissing, hnone]
    rfl
  · rw [hfound, ((searchWithin_inv _ _).2 f hfound).first hstrays (by simp) horder]
    rfl

/-! ## Lookups -/

theorem lookup_of_search {id : ObjId} {answer : Option Ref}
    (h : (search w id name true).answer? = some answer) :
    (lookup id name true w).1 = .ok answer := by
  rw [lookup, run_get_bind]
  cases hsearch : search w id name true with
  | found f =>
      obtain rfl : some f = answer := by simpa [hsearch, Search.answer?] using h
      cases f <;> rfl
  | missing =>
      obtain rfl : none = answer := by simpa [hsearch, Search.answer?] using h
      rfl
  | _ => simp [hsearch, Search.answer?] at h

theorem lookup_of_endless {id : ObjId} (h : ¬ (search w id name true).Ended) :
    ∃ cause, lookup id name true w = (.error (.panic cause), w) := by
  rw [lookup, run_get_bind]
  cases hsearch : search w id name true with
  | found f => exact absurd (.inr ⟨f, hsearch⟩) h
  | missing => exact absurd (.inl hsearch) h
  | endless => exact ⟨.stackExhausted, rfl⟩
  | nullImport => exact ⟨.nullDereference "Module", rfl⟩

/-- A lookup answers exactly if its search does not stray, and then with the function of the first
module in depth first order that has the name; a lookup that strays is given up. -/
theorem lookup_depthFirst (w : World κ) (id : ObjId) (name : String) :
    ∃ order, (∀ order', PreOrder w [] [some id] order' ↔ order' = order) ∧
      (∀ m, m ∈ order ↔ ReflTransGen (Imports w) (some id) m) ∧
      ((lookup id name true w).1 = .ok (order.findSome? (functionAt w name)) ↔
        ¬ Strays w name (some id)) ∧
      ((∃ cause, lookup id name true w = (.error (.panic cause), w)) ↔
        Strays w name (some id)) ∧
      (order.findSome? (functionAt w name) = none ↔ Lacking w name (some id)) := by
  obtain ⟨order, horder⟩ := exists_preOrder w (some id)
  have hmem : ∀ m, m ∈ order ↔ ReflTransGen (Imports w) (some id) m :=
    fun m => mem_preOrder_iff horder
  refine ⟨order, fun order' => ⟨horder.unique, fun h => h ▸ horder⟩, hmem, ?_⟩
  have hanswers : ¬ Strays w name (some id) →
      (lookup id name true w).1 = .ok (order.findSome? (functionAt w name)) :=
    fun h => lookup_of_search (search_answer id name horder h)
  have hgivenUp : Strays w name (some id) →
      ∃ cause, lookup id name true w = (.error (.panic cause), w) :=
    fun h => lookup_of_endless fun hended => (search_ended_iff w id name).mp hended h
  refine ⟨⟨fun hok hstrays => ?_, hanswers⟩, ⟨fun ⟨cause, hpanic⟩ => ?_, hgivenUp⟩, ?_⟩
  · obtain ⟨cause, hpanic⟩ := hgivenUp hstrays
    simp [hpanic] at hok
  · by_contra hstrays
    simpa [hpanic] using hanswers hstrays
  · rw [List.findSome?_eq_none_iff]
    exact ⟨fun h m hm => h m ((hmem m).mpr hm), fun h m hm => h m ((hmem m).mp hm)⟩

/-- A module that imports itself. -/
def selfImporting : World Unit :=
  ((do
    let id ← make "user"
    Run.retain id
    addImport id (some id) : Run Unit Unit) World.initial).2

/-- A name that nothing has is looked up without end in a module that imports itself. -/
theorem selfImporting_lookup :
    (∀ m, ReflTransGen (Imports selfImporting) (some ⟨0⟩) m →
      functionAt selfImporting "absent" m = none) ∧
    lookup ⟨0⟩ "absent" true selfImporting = (.error (.panic .stackExhausted), selfImporting) := by
  refine ⟨fun m hm => ?_, rfl⟩
  have himports : importsOf selfImporting (some ⟨0⟩) = [some ⟨0⟩] := rfl
  obtain rfl : m = some ⟨0⟩ := by
    induction hm with
    | refl => rfl
    | tail _ hstep ih =>
        subst ih
        simpa [Imports, himports] using hstep
  rfl

end ObjectRuntime.Module

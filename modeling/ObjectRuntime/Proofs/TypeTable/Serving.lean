import ObjectRuntime.Proofs.TypeTable.Lookups
import ObjectRuntime.Proofs.Lists
set_option autoImplicit false

/-!
# Classes that can be had

A class is registered when it is first looked up, which fails if its index is taken or the table is
full.  `Serves` says of a table that some classes can be had however often they are asked for, in
whatever order.  The table in which only the root is registered serves the built-in classes.
-/

namespace ObjectRuntime

namespace TypeTable

variable {t : TypeTable} {cs : List ObjectClass} {c : ObjectClass} {decl : TypeDecl}
  {i index : Nat}

/-- The table after classes have been looked up. -/
def afterLookups (t : TypeTable) (cs : List ObjectClass) : TypeTable :=
  cs.foldl (fun t c => (t.touch c).2) t

/-- Whichever of the classes have been looked up before, each of them is found. -/
structure Serves (cs : List ObjectClass) (t : TypeTable) : Prop where
  regular : t.Regular
  offered : ∀ order : List ObjectClass, (∀ c ∈ order, c ∈ cs) → ∀ c ∈ cs,
    ∃ first, ((t.afterLookups order).touch c).1 = .ok first

namespace Serves

/-- A lookup succeeds and changes nothing of that. -/
theorem touch (h : Serves cs t) (hright : ∀ c ∈ cs, c.Rightful) (hc : c ∈ cs) :
    ∃ first, (t.touch c).1 = .ok first ∧ Serves cs (t.touch c).2 := by
  obtain ⟨first, hfirst⟩ := h.offered [] (fun _ hmem => nomatch hmem) c hc
  refine ⟨first, hfirst, (h.regular.touch (hright c hc)).1.regular, fun order horder => ?_⟩
  exact h.offered (c :: order) (List.forall_mem_cons.mpr ⟨hc, horder⟩)

/-- Fewer classes can be had as well. -/
theorem mono {cs' : List ObjectClass} (h : Serves cs t) (hsub : ∀ c ∈ cs', c ∈ cs) :
    Serves cs' t :=
  ⟨h.regular, fun order horder c hc =>
    h.offered order (fun c hc => hsub c (horder c hc)) c (hsub c hc)⟩

end Serves

/-! ## Built-in classes -/

/-- The index that a class claims. -/
def claimed? : ObjectClass → Option Nat
  | .root => none
  | .derived decl _ => decl.claimed

/-- The classes that have not been looked up. -/
def unknown (t : TypeTable) (cs : List ObjectClass) : List ObjectClass :=
  cs.filter fun c => (t.classIndex? c).isNone

/-- A table in which there is a place for every built-in class that has not been looked up. -/
structure Roomy (t : TypeTable) : Prop where
  regular : t.Regular
  unregistered : ∀ c ∈ ObjectClass.builtins, t.classIndex? c = none → t.index? c.key = none
  free : ∀ c ∈ ObjectClass.builtins, t.classIndex? c = none →
    ∀ i, claimed? c = some i → t.typeAt? i = none
  room : t.entries.size + (t.unknown ObjectClass.builtins).length ≤
    firstDynamic + ObjectClass.builtins.length

/-- The built-in classes lie below the root, have no slots for children, and claim indices above
that of the root. -/
theorem exists_decl_of_mem_builtins (hc : c ∈ ObjectClass.builtins) :
    ∃ decl : TypeDecl, c = .derived decl .root ∧ decl.childSlots = 0 ∧
      ∀ i, decl.claimed = some i → rootIndex < i ∧ i < firstDynamic := by
  simp only [ObjectClass.builtins, List.mem_cons, List.not_mem_nil, or_false] at hc
  rcases hc with rfl | rfl | rfl | rfl | rfl | rfl | rfl | rfl | rfl | rfl
  all_goals exact ⟨_, rfl, rfl, fun i hi => by cases hi <;> decide⟩

/-- No two of them claim the same index. -/
theorem key_eq_of_claimed {c' : ObjectClass} (hc : c ∈ ObjectClass.builtins)
    (hc' : c' ∈ ObjectClass.builtins) (hi : claimed? c = some i) (hi' : claimed? c' = some i) :
    c'.key = c.key := by
  have hall : ∀ c ∈ ObjectClass.builtins, ∀ c' ∈ ObjectClass.builtins,
      claimed? c ≠ none → claimed? c = claimed? c' → c'.key = c.key := by
    decide +kernel
  exact hall c hc c' hc' (by simp [hi]) (hi.trans hi'.symm)

/-- A new type whose place has been made is put there. -/
theorem allocate_of_place {p : TypeInfo} {t₁ : TypeTable} {key : String} {claimed : Option Nat}
    (overflow : Bool) (hkey : t.index? key = none) (hp : t.typeAt? rootIndex = some p)
    (hindex : p.index = rootIndex) (hplace : t.place key claimed p 1 = .ok (t₁, index))
    (hwithin : index < t₁.entries.size) :
    t.allocate key claimed rootIndex 0 overflow =
      (.ok index, t₁.put ⟨index, p.index, 1, 1, overflow && p.slotsCanOverflow, key⟩) := by
  have hdraft : t.draft key claimed p 0 overflow =
      .ok (t₁, ⟨index, p.index, 1, 1, overflow && p.slotsCanOverflow, key⟩) := by
    have hslots : checkedOp .u32 .add (0 : Nat) 1 = .ok 1 :=
      checkedOp_add_eq_ok.mpr ⟨by decide, rfl⟩
    simp only [draft, hslots, bind, Except.bind, Int.toNat_one, hplace]
  simp only [allocate, hkey, hp, Option.filter_some, hindex, decide_true, if_true, allocateUnder,
    hdraft, settle, hwithin]

namespace Roomy

theorem initial : Roomy TypeTable.initial where
  regular := .initial
  unregistered := by decide +kernel
  free c hc _ i hi := by
    obtain ⟨decl, rfl, -, hclaimed⟩ := exists_decl_of_mem_builtins hc
    rw [typeAt?_initial, if_neg (Nat.ne_of_gt (hclaimed i hi).1)]
  room := by decide +kernel

/-- The place of a class that has not been looked up is the index it claims, or the end of the
table; no other class claims it. -/
theorem placed (h : Roomy t) (hc : .derived decl .root ∈ ObjectClass.builtins)
    (hnew : t.known.lookup decl.key = none) :
    ∃ (t₁ : TypeTable) (index : Nat),
      t.place decl.key decl.claimed ⟨rootIndex, rootIndex, 0, 1, true, ObjectClass.rootKey⟩ 1 =
        .ok (t₁, index) ∧ t₁.keys = t.keys ∧ t₁.known = t.known ∧
      (∀ j, t₁.typeAt? j = t.typeAt? j) ∧ t₁.entries.size ≤ t.entries.size + 1 ∧
      index < t₁.entries.size ∧
      ∀ c ∈ ObjectClass.builtins, claimed? c = some index → c.key = decl.key := by
  obtain ⟨decl', heq, -, hclaimed⟩ := exists_decl_of_mem_builtins hc
  cases heq
  have hsize := h.regular.layout.claimable
  cases hclaim : decl.claimed with
  | some i =>
      obtain ⟨hpos, hlt⟩ := hclaimed i hclaim
      have hin : i < t.entries.size := Nat.lt_of_lt_of_le hlt hsize
      have hfree : t.entries[i]? = some none := by
        have hnone := h.free _ hc hnew i hclaim
        rw [typeAt?, Array.getElem?_eq_getElem hin] at hnone
        rw [Array.getElem?_eq_getElem hin]
        exact congrArg some hnone
      refine ⟨t, i, ?_, rfl, rfl, fun _ => rfl, Nat.le_succ _, hin,
        fun c' hc' hi => key_eq_of_claimed hc hc' hclaim hi⟩
      simp only [place, hfree, hpos, if_true]
  | none =>
      refine ⟨t.extend 1, t.entries.size, ?_, rfl, rfl, fun j => typeAt?_extend t 1 j, by simp,
        by simp, fun c' hc' hi => ?_⟩
      · have hroom := h.room
        have hbuiltins : ObjectClass.builtins.length = 10 := by decide
        have hdynamic : firstDynamic = 8 := rfl
        have hwanted : checkedOp .u32 .add (1 : Nat) (1 : Nat) = .ok 2 :=
          checkedOp_add_eq_ok.mpr ⟨by decide, rfl⟩
        have hend : checkedOp .u32 .add t.entries.size (1 : Nat) =
            .ok ((t.entries.size : Int) + 1) := by
          have hmin : IntKind.u32.min = 0 := by decide
          have hmax : IntKind.u32.max = 4294967295 := by decide
          refine checkedOp_add_eq_ok.mpr ⟨?_, rfl⟩
          simp only [IntKind.Fits, hmin, hmax]
          omega
        simp only [place, hwanted, hend, bind, Except.bind]
        rfl
      · -- the claimed indices lie below the end of the table
        obtain ⟨decl', rfl, -, hclaimed'⟩ := exists_decl_of_mem_builtins hc'
        have := (hclaimed' _ hi).2
        omega

/-- A class that has not been looked up is registered at that place. -/
theorem registered (h : Roomy t) (hc : .derived decl .root ∈ ObjectClass.builtins)
    (hnew : t.known.lookup decl.key = none) :
    ∃ (t₁ : TypeTable) (e : TypeInfo), t.touch (.derived decl .root) =
        (.ok e.index, { t₁.put e with known := (decl.key, e.index) :: t.known }) ∧
      e.key = decl.key ∧ t₁.keys = t.keys ∧ (∀ j, t₁.typeAt? j = t.typeAt? j) ∧
      t₁.entries.size ≤ t.entries.size + 1 ∧
      ∀ c ∈ ObjectClass.builtins, claimed? c = some e.index → c.key = decl.key := by
  obtain ⟨decl', heq, hslots, -⟩ := exists_decl_of_mem_builtins hc
  cases heq
  obtain ⟨t₁, index, hplace, hkeys, hknown, htypes, hgrown, hwithin, hown⟩ := h.placed hc hnew
  refine ⟨t₁, ⟨index, rootIndex, 1, 1, decl.slotsCanOverflow && true, decl.key⟩, ?_, rfl, hkeys,
    htypes, hgrown, hown⟩
  have hkey : t.index? decl.key = none := h.unregistered _ hc hnew
  have hallocate := allocate_of_place decl.slotsCanOverflow hkey h.regular.layout.root rfl hplace
    hwithin
  simp only [TypeTable.touch, hnew, registerUnder, hslots, hallocate, put, hknown]

/-- The table in which a class has been registered has room for the others. -/
theorem afterRegistered {t₁ : TypeTable} {e : TypeInfo} (h : Roomy t)
    (hc : .derived decl .root ∈ ObjectClass.builtins) (hnew : t.known.lookup decl.key = none)
    (hkey : e.key = decl.key) (hkeys : t₁.keys = t.keys) (htypes : ∀ j, t₁.typeAt? j = t.typeAt? j)
    (hsize : t₁.entries.size ≤ t.entries.size + 1)
    (hown : ∀ c ∈ ObjectClass.builtins, claimed? c = some e.index → c.key = decl.key)
    (hregular : Regular { t₁.put e with known := (decl.key, e.index) :: t.known }) :
    Roomy { t₁.put e with known := (decl.key, e.index) :: t.known } := by
  have hclass : ∀ c' ∈ ObjectClass.builtins,
      TypeTable.classIndex? { t₁.put e with known := (decl.key, e.index) :: t.known } c' =
        if c'.key = decl.key then some e.index else t.classIndex? c' := by
    intro c' hc'
    obtain ⟨decl', rfl, -, -⟩ := exists_decl_of_mem_builtins hc'
    exact lookup_cons_eq _ _ _ _
  refine ⟨hregular, fun c' hc' hunknown => ?_, fun c' hc' hunknown i hi => ?_, ?_⟩
  · rw [hclass c' hc'] at hunknown
    split at hunknown
    · cases hunknown
    · rename_i hne
      have hold := h.unregistered c' hc' hunknown
      simp only [index?, put, hkeys, hkey, lookup_cons_eq, if_neg hne] at hold ⊢
      exact hold
  · rw [hclass c' hc'] at hunknown
    split at hunknown
    · cases hunknown
    · rename_i hne
      have hindex : i ≠ e.index := by
        rintro rfl
        exact hne (hown c' hc' hi)
      have hput : (t₁.put e).typeAt? i = t₁.typeAt? i := typeAt?_put_of_ne hindex
      exact hput.trans ((htypes i).trans (h.free c' hc' hunknown i hi))
  · -- one class fewer is unknown, and the table has grown by one place at most
    have hunknown : TypeTable.unknown
        { t₁.put e with known := (decl.key, e.index) :: t.known } ObjectClass.builtins =
          (t.unknown ObjectClass.builtins).filter fun c' => c'.key ≠ decl.key := by
      rw [unknown, unknown, List.filter_filter]
      refine List.filter_congr fun c' hc' => ?_
      rw [hclass c' hc']
      by_cases heq : c'.key = decl.key <;> simp [heq]
    have hmem : .derived decl .root ∈ t.unknown ObjectClass.builtins :=
      List.mem_filter.mpr ⟨hc, by simp [classIndex?, hnew]⟩
    have hfewer : ((t.unknown ObjectClass.builtins).filter fun c' => c'.key ≠ decl.key).length <
        (t.unknown ObjectClass.builtins).length :=
      List.length_filter_lt_length_iff_exists.mpr
        ⟨.derived decl .root, hmem, by simp [ObjectClass.key]⟩
    have hroom := h.room
    have hput : (t₁.put e).entries.size = t₁.entries.size := size_put t₁ e
    rw [hunknown]
    simp only [hput]
    omega

/-- Looking a built-in class up leaves room for the others. -/
theorem touch (h : Roomy t) (hc : c ∈ ObjectClass.builtins) :
    (∃ first, (t.touch c).1 = .ok first) ∧ Roomy (t.touch c).2 := by
  have hregular := (h.regular.touch (ObjectClass.rightful_of_mem_builtins hc)).1.regular
  obtain ⟨decl, rfl, -, -⟩ := exists_decl_of_mem_builtins hc
  cases hknown : t.known.lookup decl.key with
  | some first =>
      rw [touch_of_classIndex? (show t.classIndex? (.derived decl .root) = some first from hknown)]
      exact ⟨⟨first, rfl⟩, h⟩
  | none =>
      obtain ⟨t₁, e, htouch, hkey, hkeys, htypes, hsize, hown⟩ := h.registered hc hknown
      rw [htouch] at hregular ⊢
      exact ⟨⟨_, rfl⟩, h.afterRegistered hc hknown hkey hkeys htypes hsize hown hregular⟩

/-- So does looking any number of them up. -/
theorem afterLookups {order : List ObjectClass} (h : Roomy t)
    (horder : ∀ c ∈ order, c ∈ ObjectClass.builtins) : Roomy (t.afterLookups order) := by
  induction order generalizing t with
  | nil => exact h
  | cons c order ih =>
      obtain ⟨hc, horder⟩ := List.forall_mem_cons.mp horder
      exact ih (h.touch hc).2 horder

theorem serves (h : Roomy t) : Serves ObjectClass.builtins t :=
  ⟨h.regular, fun _ horder _ hc => ((h.afterLookups horder).touch hc).1⟩

end Roomy

end TypeTable

end ObjectRuntime

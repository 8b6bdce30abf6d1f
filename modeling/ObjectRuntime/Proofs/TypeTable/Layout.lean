import ObjectRuntime.Proofs.TypeTable.Slots
set_option autoImplicit false

/-!
# The layout of the type table

The slots of a type lie behind all that its ancestors had handed out when it was registered, so what
lies in the slots of a type descends from it; and a type whose children may not overflow has all its
descendants there.  `Layout` is this invariant, `Vacant` says where a new type may go without
breaking it, and `Layout.registered` is the step: each of the three places a registration chooses
is vacant.
-/

namespace ObjectRuntime

namespace TypeTable

variable {t t' : TypeTable} {i j parentIndex slots childSlots : Nat} {p e : TypeInfo}
  {claimed : Option Nat}

/-- How the types of a table lie in it.  Apart from the root, which has no slot for a child, every
type owns the slots from its index on. -/
structure Layout (t : TypeTable) : Prop where
  root : t.typeAt? rootIndex = some ⟨rootIndex, rootIndex, 0, 1, true, ObjectClass.rootKey⟩
  claimable : firstDynamic ≤ t.entries.size
  indexed : ∀ {i e}, t.typeAt? i = some e → e.index = i
  parent : ∀ {i e}, t.typeAt? i = some e → i ≠ rootIndex →
    e.parent < i ∧ ∃ p, t.typeAt? e.parent = some p
  used : ∀ {i e}, t.typeAt? i = some e → i ≠ rootIndex →
    1 ≤ e.allocated ∧ e.allocated ≤ e.slots ∧ i + e.slots ≤ t.entries.size
  static : ∀ {i e}, t.typeAt? i = some e → i ≠ rootIndex → i < firstDynamic → e.slots = 1
  nested : ∀ {i e j f}, t.typeAt? i = some e → t.typeAt? j = some f → i ≠ rootIndex →
    i < j → j < i + e.slots → j + f.slots ≤ i + e.allocated ∧ i ≤ f.parent
  closed : ∀ {j f p}, t.typeAt? j = some f → j ≠ rootIndex → t.typeAt? f.parent = some p →
    p.slotsCanOverflow = false → f.slotsCanOverflow = false ∧ j < f.parent + p.slots

/-- `slots` slots from `i` on that nobody has taken, and that are a child's of `parent`: whoever else
owns them has handed them out, to `parent` or to someone above it. -/
structure Vacant (t : TypeTable) (i slots parent : Nat) : Prop where
  within : i + slots ≤ t.entries.size
  after : parent < i
  free : ∀ {j f}, t.typeAt? j = some f → i ≤ j → j < i + slots → False
  owned : ∀ {a e}, t.typeAt? a = some e → a ≠ rootIndex → a < i → i < a + e.slots →
    i + slots ≤ a + e.allocated ∧ a ≤ parent

namespace Vacant

/-- Vacant slots are in the table. -/
theorem lt_size (h : Vacant t i slots parentIndex) (hpos : 0 < slots) : i < t.entries.size :=
  Nat.lt_of_lt_of_le (Nat.lt_add_of_pos_right hpos) h.within

/-- Nothing is registered where slots are vacant. -/
theorem unregistered (h : Vacant t i slots parentIndex) (hpos : 0 < slots) :
    t.typeAt? i = none := by
  cases he : t.typeAt? i with
  | none => rfl
  | some e => exact (h.free he (Nat.le_refl _) (Nat.lt_add_of_pos_right hpos)).elim

end Vacant

theorem typeAt?_initial (i : Nat) :
    TypeTable.initial.typeAt? i =
      if i = rootIndex then some ⟨rootIndex, rootIndex, 0, 1, true, ObjectClass.rootKey⟩
      else none := by
  by_cases hi : i = rootIndex
  · subst hi
    rfl
  · by_cases hlt : i < firstDynamic
    · simp [TypeTable.initial, typeAt?, hi, Ne.symm hi, hlt]
    · simp [TypeTable.initial, typeAt?, hi, hlt]

namespace Layout

/-- The table starts with this layout. -/
theorem initial : Layout TypeTable.initial := by
  have honly : ∀ {i e}, TypeTable.initial.typeAt? i = some e → i = rootIndex := by
    intro i e h
    by_contra hi
    simp [typeAt?_initial, hi] at h
  exact {
    root := rfl
    claimable := Nat.le_refl _
    indexed := by
      intro i e h
      obtain rfl := honly h
      cases h
      rfl
    parent := fun h hne => absurd (honly h) hne
    used := fun h hne => absurd (honly h) hne
    static := fun h hne => absurd (honly h) hne
    nested := fun h _ hne => absurd (honly h) hne
    closed := fun h hne => absurd (honly h) hne }

/-- Slots behind the end change nothing. -/
theorem extend (h : Layout t) (slots : Nat) : Layout (t.extend slots) := by
  constructor
  case root => simpa using h.root
  case claimable => simpa using Nat.le_add_right_of_le h.claimable
  case indexed =>
    simp only [typeAt?_extend]
    exact h.indexed
  case parent =>
    simp only [typeAt?_extend]
    exact h.parent
  case used =>
    intro i e he hne
    have := h.used (by simpa using he) hne
    simp only [size_extend]
    omega
  case static =>
    simp only [typeAt?_extend]
    exact h.static
  case nested =>
    simp only [typeAt?_extend]
    exact h.nested
  case closed =>
    simp only [typeAt?_extend]
    exact h.closed

/-- The slots behind the end of the table are vacant once they are there. -/
theorem vacant_extend (h : Layout t) (slots : Nat) (hp : t.typeAt? parentIndex = some p) :
    Vacant (t.extend slots) t.entries.size slots parentIndex := by
  constructor
  case within => simp
  case after => exact lt_size_of_typeAt? hp
  case free =>
    intro j f hf hj _
    have := lt_size_of_typeAt? (t := t) (by simpa using hf)
    omega
  case owned =>
    intro a e he hne _ hlt
    have := h.used (by simpa using he) hne
    omega

/-- An index that may be claimed belongs to no other type. -/
theorem vacant_claimed (h : Layout t) (hlt : i < firstDynamic) (hfree : t.typeAt? i = none)
    (hbelow : rootIndex < i) : Vacant t i 1 rootIndex := by
  have hsize := h.claimable
  constructor
  case within => omega
  case after => exact hbelow
  case free =>
    intro j f hf hj hji
    obtain rfl : j = i := by omega
    simp [hfree] at hf
  case owned =>
    intro a e he hne hai hia
    have := h.static he hne (by omega)
    omega

/-- The root has no reserve. -/
theorem ne_root_of_room (h : Layout t) (hp : t.typeAt? p.index = some p)
    (hroom : p.allocated + slots ≤ p.slots) : p.index ≠ rootIndex := by
  intro heq
  rw [heq, h.root] at hp
  cases hp
  exact Nat.not_succ_le_zero _ (Nat.le_trans (Nat.le_add_right _ _) hroom)

/-- Handing out slots of a reserve keeps the layout. -/
theorem reserveIn (h : Layout t) (hp : t.typeAt? p.index = some p)
    (hroom : p.allocated + slots ≤ p.slots) : Layout (t.reserveIn p slots) := by
  have hroot := h.ne_root_of_room hp hroom
  constructor
  case root =>
    rw [typeAt?_reserveIn, if_neg (fun hj => hroot hj.1.symm)]
    exact h.root
  case claimable => simpa using h.claimable
  case indexed =>
    intro i e he
    obtain ⟨e₀, he₀, rfl⟩ := typeAt?_reserveIn_inv hp he
    exact (h.indexed he₀ :)
  case parent =>
    intro i e he hne
    obtain ⟨e₀, he₀, rfl⟩ := typeAt?_reserveIn_inv hp he
    obtain ⟨hlt, q, hq⟩ := h.parent he₀ hne
    exact ⟨hlt, typeAt?_reserveIn_some p slots hq⟩
  case used =>
    intro i e he hne
    obtain ⟨e₀, he₀, rfl⟩ := typeAt?_reserveIn_inv hp he
    have hused := h.used he₀ hne
    by_cases hi : i = p.index
    · subst hi
      obtain rfl : p = e₀ := by simpa [hp] using he₀
      simp only [if_true, size_reserveIn]
      omega
    · simpa [hi] using hused
  case static =>
    intro i e he
    obtain ⟨e₀, he₀, rfl⟩ := typeAt?_reserveIn_inv hp he
    exact (h.static he₀ :)
  case nested =>
    intro i e j f he hf hne hij hji
    obtain ⟨e₀, he₀, rfl⟩ := typeAt?_reserveIn_inv hp he
    obtain ⟨f₀, hf₀, rfl⟩ := typeAt?_reserveIn_inv hp hf
    obtain ⟨hend, hparent⟩ := h.nested he₀ hf₀ hne hij hji
    refine ⟨Nat.le_trans hend (Nat.add_le_add_left ?_ i), hparent⟩
    dsimp only
    split <;> omega
  case closed =>
    intro j f q hf hne hq hover
    obtain ⟨f₀, hf₀, rfl⟩ := typeAt?_reserveIn_inv hp hf
    obtain ⟨q₀, hq₀, rfl⟩ := typeAt?_reserveIn_inv hp hq
    exact (h.closed hf₀ hne hq₀ hover :)

/-- The slots handed out of a reserve are vacant. -/
theorem vacant_reserveIn (h : Layout t) (hp : t.typeAt? p.index = some p)
    (hroom : p.allocated + slots ≤ p.slots) (hpos : 0 < slots) :
    Vacant (t.reserveIn p slots) (p.index + p.allocated) slots p.index := by
  have hroot := h.ne_root_of_room hp hroom
  have hused := h.used hp hroot
  constructor
  case within =>
    simp only [size_reserveIn]
    omega
  case after => omega
  case free =>
    intro j f hf hj hji
    obtain ⟨f₀, hf₀, rfl⟩ := typeAt?_reserveIn_inv hp hf
    have hend := (h.nested hp hf₀ hroot (by omega) (by omega)).1
    have hown := h.used hf₀ (Nat.ne_zero_of_lt (Nat.lt_of_lt_of_le (by omega : p.index < _) hj))
    omega
  case owned =>
    intro a e he hne hai hia
    obtain ⟨e₀, he₀, rfl⟩ := typeAt?_reserveIn_inv hp he
    dsimp only at hia ⊢
    rcases Nat.lt_trichotomy a p.index with hap | rfl | hap
    · have hend := (h.nested he₀ hp hne hap (by omega)).1
      rw [if_neg (Nat.ne_of_lt hap)]
      omega
    · obtain rfl : p = e₀ := by simpa [hp] using he₀
      rw [if_pos rfl]
      omega
    · -- a type in the parent's reserve ends where the new slots start
      have hend := (h.nested hp he₀ hroot hap (by omega)).1
      omega

/-- A new type in vacant slots keeps the layout. -/
theorem put (h : Layout t) (hv : Vacant t e.index e.slots e.parent)
    (hparent : t.typeAt? e.parent = some p) (hslots : 0 < e.slots) (hallocated : e.allocated = 1)
    (hstatic : e.index < firstDynamic → e.slots = 1)
    (hclosed : p.slotsCanOverflow = false →
      e.slotsCanOverflow = false ∧ e.index < e.parent + p.slots) : Layout (t.put e) := by
  have hlt := hv.lt_size hslots
  have hold : ∀ {j f}, t.typeAt? j = some f → j ≠ e.index := by
    rintro j f hf rfl
    simp [hv.unregistered hslots] at hf
  have hentry : ∀ {j f}, (t.put e).typeAt? j = some f →
      (j = e.index ∧ f = e) ∨ (j ≠ e.index ∧ t.typeAt? j = some f) := by
    intro j f hf
    rw [typeAt?_put] at hf
    by_cases hj : j = e.index
    · subst hj
      rw [if_pos ⟨rfl, hlt⟩] at hf
      exact .inl ⟨rfl, (Option.some.inj hf).symm⟩
    · rw [if_neg (fun hand => hj hand.1)] at hf
      exact .inr ⟨hj, hf⟩
  have hkept : ∀ {j f}, t.typeAt? j = some f → (t.put e).typeAt? j = some f := by
    intro j f hf
    rw [typeAt?_put, if_neg (fun hand => hold hf hand.1)]
    exact hf
  constructor
  case root => exact hkept h.root
  case claimable => simpa using h.claimable
  case indexed =>
    intro j f hf
    rcases hentry hf with ⟨rfl, rfl⟩ | ⟨-, hf⟩
    · rfl
    · exact h.indexed hf
  case parent =>
    intro j f hf hne
    rcases hentry hf with ⟨rfl, rfl⟩ | ⟨-, hf⟩
    · exact ⟨hv.after, p, hkept hparent⟩
    · obtain ⟨hbelow, q, hq⟩ := h.parent hf hne
      exact ⟨hbelow, q, hkept hq⟩
  case used =>
    intro j f hf hne
    rw [size_put]
    rcases hentry hf with ⟨rfl, rfl⟩ | ⟨-, hf⟩
    · have := hv.within
      omega
    · exact h.used hf hne
  case static =>
    intro j f hf hne hstat
    rcases hentry hf with ⟨rfl, rfl⟩ | ⟨-, hf⟩
    · exact hstatic hstat
    · exact h.static hf hne hstat
  case nested =>
    intro i f j g hf hg hne hij hji
    rcases hentry hf with ⟨rfl, rfl⟩ | ⟨-, hf₀⟩
    · rcases hentry hg with ⟨rfl, rfl⟩ | ⟨-, hg₀⟩
      · exact absurd hij (Nat.lt_irrefl _)
      · exact (hv.free hg₀ (Nat.le_of_lt hij) hji).elim
    · rcases hentry hg with ⟨rfl, rfl⟩ | ⟨-, hg₀⟩
      · exact hv.owned hf₀ hne hij hji
      · exact h.nested hf₀ hg₀ hne hij hji
  case closed =>
    intro j f q hf hne hq hover
    rcases hentry hf with ⟨rfl, rfl⟩ | ⟨-, hf⟩
    · rw [hkept hparent] at hq
      cases hq
      exact hclosed hover
    · obtain ⟨-, q₀, hq₀⟩ := h.parent hf hne
      rw [hkept hq₀] at hq
      cases hq
      exact h.closed hf hne hq₀ hover

/-- Wherever a new type is placed, the place is in the table and free, and the type in it keeps the
layout. -/
theorem registered (h : Layout t) (key : String) (overflow : Bool)
    (hp : t.typeAt? parentIndex = some p)
    (hclaim : ∀ index, claimed = some index →
      index < firstDynamic ∧ parentIndex = rootIndex ∧ childSlots = 0)
    (hplace : Placement t p (childSlots + 1) claimed t' i) :
    i < t'.entries.size ∧ t'.typeAt? i = none ∧
      Layout (t'.put
        ⟨i, p.index, childSlots + 1, 1, overflow && p.slotsCanOverflow, key⟩) := by
  obtain rfl := h.indexed hp
  cases hplace with
  | claimed index free within below =>
      obtain ⟨hlt, hroot, rfl⟩ := hclaim i rfl
      have hvacant : Vacant t i 1 p.index := by
        rw [hroot] at below ⊢
        exact h.vacant_claimed hlt free below
      rw [hroot, h.root] at hp
      obtain rfl := Option.some.inj hp
      exact ⟨within, free,
        h.put hvacant h.root Nat.one_pos rfl (fun _ => rfl) (fun hover => nomatch hover)⟩
  | reserved room =>
      have hvacant := h.vacant_reserveIn hp room (Nat.succ_pos childSlots)
      have hdynamic : firstDynamic ≤ p.index + p.allocated := by
        by_contra hlt
        have hone := h.static hp (h.ne_root_of_room hp room) (by omega)
        have hused := h.used hp (h.ne_root_of_room hp room)
        omega
      obtain ⟨q, hq⟩ := typeAt?_reserveIn_some p (childSlots + 1) hp
      obtain ⟨p₀, hp₀, rfl⟩ := typeAt?_reserveIn_inv hp hq
      obtain rfl : p = p₀ := by simpa [hp] using hp₀
      refine ⟨hvacant.lt_size (Nat.succ_pos _), hvacant.unregistered (Nat.succ_pos _),
        (h.reserveIn hp room).put hvacant hq (Nat.succ_pos _) rfl
          (fun hlt => absurd hlt (Nat.not_lt.mpr hdynamic)) (fun hover => ?_)⟩
      have hover : p.slotsCanOverflow = false := hover
      refine ⟨by simp [hover], ?_⟩
      dsimp only
      omega
  | appended full may =>
      have hvacant := h.vacant_extend (childSlots + 1) hp
      refine ⟨hvacant.lt_size (Nat.succ_pos _), hvacant.unregistered (Nat.succ_pos _),
        (h.extend _).put hvacant (by simpa using hp) (Nat.succ_pos _) rfl
          (fun hlt => absurd hlt (Nat.not_lt.mpr h.claimable)) (fun hover => ?_)⟩
      exact absurd may (by simp [hover])

end Layout

end TypeTable

end ObjectRuntime

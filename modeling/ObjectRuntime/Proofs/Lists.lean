import Mathlib.Data.List.Forall2
import Mathlib.Data.List.TakeDrop
import Mathlib.Data.List.TakeWhile
import Mathlib.Tactic.Common
set_option autoImplicit false

/-!
# Association lists, lists side by side and splits
-/

namespace ObjectRuntime

variable {α β : Type}

/-- What is found by name is in the list. -/
theorem mem_of_lookup [BEq α] [LawfulBEq α] {as : List (α × β)} {a : α} {b : β}
    (h : as.lookup a = some b) : (a, b) ∈ as := by
  obtain ⟨before, after, rfl, -⟩ := List.lookup_eq_some_iff.mp h
  simp

/-- In a list in which no name occurs twice everything is found by its name. -/
theorem lookup_of_mem [BEq α] [LawfulBEq α] {as : List (α × β)} {a : α} {b : β}
    (hnodup : (as.map Prod.fst).Nodup) (h : (a, b) ∈ as) : as.lookup a = some b := by
  obtain ⟨before, after, rfl⟩ := List.append_of_mem h
  refine List.lookup_eq_some_iff.mpr ⟨before, after, rfl, fun p hp => ?_⟩
  rw [List.map_append, List.map_cons] at hnodup
  have hne := (List.nodup_append.mp hnodup).2.2 p.1 (List.mem_map_of_mem hp) a List.mem_cons_self
  simpa using fun heq => hne heq.symm

/-- In a list in which no key occurs twice everything is found by its key. -/
theorem find?_of_mem [BEq β] [LawfulBEq β] {key : α → β} {as : List α} {a : α}
    (hnodup : (as.map key).Nodup) (h : a ∈ as) : as.find? (fun b => key b == key a) = some a := by
  obtain ⟨before, after, rfl⟩ := List.append_of_mem h
  refine List.find?_eq_some_iff_append.mpr ⟨beq_self_eq_true _, before, after, rfl, fun b hb => ?_⟩
  rw [List.map_append, List.map_cons] at hnodup
  have hne := (List.nodup_append.mp hnodup).2.2 _ (List.mem_map_of_mem hb) _ List.mem_cons_self
  simpa using hne

/-- A name that is added hides what stood behind it. -/
theorem lookup_cons_eq [BEq α] [LawfulBEq α] [DecidableEq α] (a x : α) (b : β)
    (as : List (α × β)) : ((a, b) :: as).lookup x = if x = a then some b else as.lookup x := by
  by_cases hx : x = a
  · simp [hx]
  · simp [List.lookup_cons, hx, beq_eq_false_iff_ne.mpr hx]

/-- Elements at one position stand side by side. -/
theorem getElem_mem_zip {as : List α} {bs : List β} {i : Nat} (ha : i < as.length)
    (hb : i < bs.length) : (as[i], bs[i]) ∈ as.zip bs := by
  have hi : i < (as.zip bs).length := by
    rw [List.length_zip]
    omega
  exact List.mem_iff_getElem.mpr ⟨i, hi, List.getElem_zip⟩

/-- In lists of one length every element of the first stands beside one of the second. -/
theorem exists_mem_zip_left {as : List α} {bs : List β} {a : α} (hlength : as.length = bs.length)
    (ha : a ∈ as) : ∃ q ∈ as.zip bs, q.1 = a := by
  rw [← List.map_fst_zip hlength.le] at ha
  exact List.mem_map.mp ha

/-- Every element of the second stands beside one of the first. -/
theorem exists_mem_zip_right {as : List α} {bs : List β} {b : β} (hlength : as.length = bs.length)
    (hb : b ∈ bs) : ∃ q ∈ as.zip bs, q.2 = b := by
  rw [← List.map_snd_zip hlength.ge] at hb
  exact List.mem_map.mp hb

/-- Every element of the second list is related to one of the first. -/
theorem exists_mem_of_forall₂ {P : α → β → Prop} {as : List α} {bs : List β} {b : β}
    (hrel : List.Forall₂ P as bs) (hb : b ∈ bs) : ∃ a ∈ as, P a b := by
  induction hrel with
  | nil => cases hb
  | @cons a b' _ _ hab _ ih =>
      rcases List.mem_cons.mp hb with rfl | hb
      · exact ⟨a, List.mem_cons_self, hab⟩
      · obtain ⟨a', ha', hab'⟩ := ih hb
        exact ⟨a', List.mem_cons_of_mem a ha', hab'⟩

/-- Every element of the first list is related to one of the second. -/
theorem exists_mem_of_forall₂_left {P : α → β → Prop} {as : List α} {bs : List β} {a : α}
    (hrel : List.Forall₂ P as bs) (ha : a ∈ as) : ∃ b ∈ bs, P a b :=
  exists_mem_of_forall₂ hrel.flip ha

/-- Lists side by side stay so if one relation implies the other for their elements. -/
theorem forall₂_imp_mem {P Q : α → β → Prop} {as : List α} {bs : List β}
    (hrel : List.Forall₂ P as bs) (hPQ : ∀ a b, a ∈ as → b ∈ bs → P a b → Q a b) :
    List.Forall₂ Q as bs := by
  induction hrel with
  | nil => exact .nil
  | cons hab _ ih =>
      exact .cons (hPQ _ _ List.mem_cons_self List.mem_cons_self hab)
        (ih fun a b ha hb => hPQ a b (List.mem_cons_of_mem _ ha) (List.mem_cons_of_mem _ hb))

/-- An element of the second list stands beside the one at its position. -/
theorem exists_getElem?_of_forall₂ {P : α → β → Prop} {as : List α} {bs : List β} {b : β} {i : Nat}
    (hrel : List.Forall₂ P as bs) (hb : bs[i]? = some b) : ∃ a, as[i]? = some a ∧ P a b := by
  induction hrel generalizing i with
  | nil => cases hb
  | @cons a b' as bs hab _ ih =>
      cases i with
      | zero =>
          cases hb
          exact ⟨a, rfl, hab⟩
      | succ i => exact ih hb

/-- Elements side by side are replaced at one position. -/
theorem forall₂_set {P : α → β → Prop} {as : List α} {bs : List β} {a : α} {b : β}
    (hrel : List.Forall₂ P as bs) (hab : P a b) (i : Nat) :
    List.Forall₂ P (as.set i a) (bs.set i b) := by
  induction hrel generalizing i with
  | nil => exact .nil
  | cons hhead htail ih =>
      cases i with
      | zero => exact .cons hab htail
      | succ i => exact .cons hhead (ih i)

/-- What holds of every two elements of the first list carries over to the second. -/
theorem pairwise_of_forall₂ {P : α → β → Prop} {R : α → α → Prop} {S : β → β → Prop} {as : List α}
    {bs : List β} (hrel : List.Forall₂ P as bs) (hR : as.Pairwise R)
    (hS : ∀ a ∈ as, ∀ a' ∈ as, ∀ b b', P a b → P a' b' → R a a' → S b b') : bs.Pairwise S := by
  induction hrel with
  | nil => exact .nil
  | @cons a b as bs hab hrel ih =>
      obtain ⟨hhead, htail⟩ := List.pairwise_cons.mp hR
      refine List.pairwise_cons.mpr ⟨fun b' hb' => ?_, ih htail fun a₁ ha₁ a₂ ha₂ =>
        hS a₁ (List.mem_cons_of_mem a ha₁) a₂ (List.mem_cons_of_mem a ha₂)⟩
      obtain ⟨a', ha', hab'⟩ := exists_mem_of_forall₂ hrel hb'
      exact hS a List.mem_cons_self a' (List.mem_cons_of_mem a ha') b b' hab hab' (hhead a' ha')

/-- What is found does not depend on the order of a list in which no two elements could be. -/
theorem find?_perm {p : α → Bool} {as bs : List α} (hperm : as.Perm bs)
    (hunique : as.Pairwise fun a a' => p a = false ∨ p a' = false) : as.find? p = bs.find? p := by
  induction hperm with
  | nil => rfl
  | cons a _ ih =>
      rw [List.find?_cons, List.find?_cons, ih (List.pairwise_cons.mp hunique).2]
  | swap a a' as =>
      have hor := (List.pairwise_cons.mp hunique).1 a List.mem_cons_self
      simp only [List.find?_cons]
      cases ha : p a <;> cases ha' : p a' <;> simp_all
  | trans hperm _ ih ih' =>
      rw [ih hunique, ih' ((hperm.pairwise_iff fun {_ _} hor => hor.symm).mp hunique)]

/-- A list is split where the first element fails that is not in the front part. -/
theorem span_append {p : α → Bool} {as bs : List α} (has : ∀ a ∈ as, p a)
    (hbs : ∀ b ∈ bs.head?, p b = false) : (as ++ bs).span p = (as, bs) := by
  have hstop : bs.takeWhile p = [] ∧ bs.dropWhile p = bs := by
    cases bs with
    | nil => exact ⟨rfl, rfl⟩
    | cons b bs => simp [hbs b rfl]
  rw [List.span_eq_takeWhile_dropWhile, List.takeWhile_append_of_pos has,
    List.dropWhile_append_of_pos has, hstop.1, hstop.2, List.append_nil]

end ObjectRuntime

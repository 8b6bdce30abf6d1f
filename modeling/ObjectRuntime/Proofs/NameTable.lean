import ObjectRuntime.NameTable
import ObjectRuntime.Proofs.Lists
import Mathlib.Data.List.Induction
import Mathlib.Tactic.Common
set_option autoImplicit false

/-!
# Tables of names that occur once

In a table every name occurs once, so a list in which this holds is its own table, and the order of
the entries can be changed without changing what the names stand for.
-/

namespace ObjectRuntime.NameTable

variable {α : Type} {entries : List (String × α)}

theorem put_of_not_mem {name : String} (hname : name ∉ entries.map Prod.fst) (a : α) :
    put name a entries = entries ++ [(name, a)] := by
  induction entries with
  | nil => rfl
  | cons e entries ih =>
      rw [List.map_cons, List.mem_cons, not_or] at hname
      rw [put, if_neg (Ne.symm hname.1), ih hname.2]
      rfl

/-- A list in which no name occurs twice is a table. -/
theorem ofList_of_nodup (hnodup : (entries.map Prod.fst).Nodup) : ofList entries = entries := by
  induction entries using List.reverseRecOn with
  | nil => rfl
  | append_singleton entries e ih =>
      rw [List.map_append, List.map_singleton] at hnodup
      obtain ⟨hentries, -, hdisjoint⟩ := List.nodup_append.mp hnodup
      have hnew : e.1 ∉ entries.map Prod.fst := fun hmem =>
        hdisjoint e.1 hmem e.1 List.mem_cons_self rfl
      rw [ofList, List.foldl_append, show entries.foldl _ [] = entries from ih hentries]
      exact put_of_not_mem hnew e.2

theorem sorted_perm (entries : List (String × α)) : (sorted entries).Perm entries :=
  List.mergeSort_perm entries _

/-- Without its first name, a list is what follows. -/
theorem erase_perm {given : List (String × α)} {name : String} {a : α}
    (hperm : given.Perm ((name, a) :: entries)) (hname : name ∉ entries.map Prod.fst) :
    (erase name given).Perm entries := by
  have hfilter := hperm.filter fun e : String × α => decide (e.1 ≠ name)
  have hrest : entries.filter (fun e => decide (e.1 ≠ name)) = entries :=
    List.filter_eq_self.mpr fun e he =>
      decide_eq_true fun heq : e.1 = name => hname (heq ▸ List.mem_map_of_mem he)
  rw [List.filter_cons_of_neg (by simp), hrest] at hfilter
  exact hfilter

/-! ## Lookups -/

theorem lookup_put (name key : String) (a : α) :
    (put name a entries).lookup key = if key = name then some a else entries.lookup key := by
  induction entries with
  | nil => rw [put, lookup_cons_eq]
  | cons e entries ih =>
      obtain ⟨n, b⟩ := e
      rw [put]
      split
      · rename_i heq
        rw [lookup_cons_eq, lookup_cons_eq, heq]
        split <;> rfl
      · rename_i hne
        rw [lookup_cons_eq, lookup_cons_eq, ih]
        by_cases hkey : key = n
        · rw [if_pos hkey, if_pos hkey, if_neg fun heq => hne (hkey.symm.trans heq)]
        · rw [if_neg hkey, if_neg hkey]

/-- In the table of a list the last entry under a name counts. -/
theorem lookup_ofList (entries : List (String × α)) (key : String) :
    (ofList entries).lookup key = entries.reverse.lookup key := by
  induction entries using List.reverseRecOn with
  | nil => rfl
  | append_singleton entries e ih =>
      rw [ofList, List.foldl_append, List.reverse_append, List.reverse_singleton,
        List.singleton_append, lookup_cons_eq, ← ih]
      exact lookup_put e.1 key e.2

theorem lookup_erase (name key : String) :
    (erase name entries).lookup key = if key = name then none else entries.lookup key := by
  by_cases hkey : key = name
  · rw [if_pos hkey, List.lookup_eq_none_iff]
    intro e he
    have hne := (List.mem_filter.mp he).2
    simp only [decide_eq_true_eq] at hne
    simpa [hkey] using Ne.symm hne
  · rw [if_neg hkey]
    induction entries with
    | nil => rfl
    | cons e entries ih =>
        obtain ⟨n, b⟩ := e
        rw [lookup_cons_eq, ← ih]
        by_cases hn : n = name
        · have hgone : erase name ((n, b) :: entries) = erase name entries :=
            List.filter_cons_of_neg (by simp [hn])
          rw [hgone, if_neg fun heq => hkey (heq.trans hn)]
        · have hkept : erase name ((n, b) :: entries) = (n, b) :: erase name entries :=
            List.filter_cons_of_pos (by simp [hn])
          rw [hkept, lookup_cons_eq]

/-- What is found after a name has been forgotten was found before. -/
theorem lookup_of_erase {name key : String} {a : α} (h : (erase name entries).lookup key = some a) :
    entries.lookup key = some a := by
  rw [lookup_erase] at h
  split at h
  · cases h
  · exact h

theorem nodup_erase {name : String} (h : (entries.map Prod.fst).Nodup) :
    ((erase name entries).map Prod.fst).Nodup :=
  h.sublist (List.filter_sublist.map Prod.fst)

/-- The names of a table are those under which something is found. -/
theorem mem_sortedNames_iff {key : String} :
    key ∈ sortedNames entries ↔ (entries.lookup key).isSome := by
  rw [sortedNames, (List.mergeSort_perm _ _).mem_iff, List.mem_map, Option.isSome_iff_exists]
  constructor
  · rintro ⟨e, he, rfl⟩
    by_contra hnone
    rw [← Option.isSome_iff_exists, Option.not_isSome_iff_eq_none, List.lookup_eq_none_iff] at hnone
    simpa using hnone e he
  · rintro ⟨a, ha⟩
    exact ⟨(key, a), mem_of_lookup ha, rfl⟩

/-- The names of a table are listed in strict order. -/
theorem pairwise_sortedNames (h : (entries.map Prod.fst).Nodup) :
    (sortedNames entries).Pairwise (· < ·) := by
  have hsorted : (sortedNames entries).Pairwise (· ≤ ·) := by
    refine (List.pairwise_mergeSort ?_ ?_ (entries.map Prod.fst)).imp of_decide_eq_true
    · intro a b c hab hbc
      exact decide_eq_true (String.le_trans (of_decide_eq_true hab) (of_decide_eq_true hbc))
    · intro a b
      rw [Bool.or_eq_true, decide_eq_true_iff, decide_eq_true_iff]
      exact String.le_total a b
  have hnodup : (sortedNames entries).Nodup := (List.mergeSort_perm _ _).nodup_iff.mpr h
  refine hsorted.imp₂ (fun a b hle hne => ?_) hnodup
  exact String.not_le.mp fun hge => hne (String.le_antisymm hle hge)

/-! ## Names of tables -/

theorem eq_or_mem_of_mem_put {name : String} {a : α} {e : String × α}
    (he : e ∈ put name a entries) : e = (name, a) ∨ e ∈ entries := by
  induction entries with
  | nil => exact .inl (List.mem_singleton.mp he)
  | cons e' entries ih =>
      rw [put] at he
      split at he
      · rename_i heq
        rcases List.mem_cons.mp he with rfl | he
        · exact .inl (Prod.ext heq rfl)
        · exact .inr (List.mem_cons_of_mem _ he)
      · rcases List.mem_cons.mp he with rfl | he
        · exact .inr List.mem_cons_self
        · exact (ih he).imp_right (List.mem_cons_of_mem _)

theorem mem_put {name : String} {a : α} {e : String × α} (he : e ∈ put name a entries) :
    e.1 = name ∨ e ∈ entries := (eq_or_mem_of_mem_put he).imp_left (congrArg Prod.fst)

/-- A table holds nothing but what it has been made of. -/
theorem mem_of_mem_ofList {e : String × α} (he : e ∈ ofList entries) : e ∈ entries := by
  induction entries using List.reverseRecOn with
  | nil => cases he
  | append_singleton entries d ih =>
      rw [ofList, List.foldl_append] at he
      rcases eq_or_mem_of_mem_put he with rfl | he
      · simp
      · exact List.mem_append_left _ (ih he)

theorem nodup_put {name : String} {a : α} (h : (entries.map Prod.fst).Nodup) :
    ((put name a entries).map Prod.fst).Nodup := by
  induction entries with
  | nil => simp [put]
  | cons e entries ih =>
      obtain ⟨hnew, hrest⟩ := List.nodup_cons.mp h
      rw [put]
      split
      · exact h
      · rename_i hne
        refine List.nodup_cons.mpr ⟨fun hmem => ?_, ih hrest⟩
        obtain ⟨e', he', heq⟩ := List.mem_map.mp hmem
        rcases mem_put he' with hname | hold
        · exact hne (heq.symm.trans hname)
        · exact hnew (heq ▸ List.mem_map_of_mem hold)

/-- No name occurs twice in a table. -/
theorem nodup_ofList (entries : List (String × α)) : ((ofList entries).map Prod.fst).Nodup := by
  induction entries using List.reverseRecOn with
  | nil => exact .nil
  | append_singleton entries e ih =>
      rw [ofList, List.foldl_append]
      exact nodup_put ih

theorem sorted_sorted (entries : List (String × α)) : sorted (sorted entries) = sorted entries := by
  refine List.mergeSort_of_pairwise (List.pairwise_mergeSort ?_ ?_ entries)
  · intro a b c hab hbc
    exact decide_eq_true (String.le_trans (of_decide_eq_true hab) (of_decide_eq_true hbc))
  · intro a b
    rw [Bool.or_eq_true, decide_eq_true_iff, decide_eq_true_iff]
    exact String.le_total a.1 b.1

/-- A table in the order of its names is its own table in this order. -/
theorem sorted_ofList_sorted (entries : List (String × α)) :
    sorted (ofList (sorted (ofList entries))) = sorted (ofList entries) := by
  have hnodup : ((sorted (ofList entries)).map Prod.fst).Nodup :=
    ((sorted_perm _).map Prod.fst).nodup_iff.mpr (nodup_ofList entries)
  rw [ofList_of_nodup hnodup, sorted_sorted]

end ObjectRuntime.NameTable

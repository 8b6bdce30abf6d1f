import ObjectRuntime.Proofs.Lists
import ObjectRuntime.Proofs.Container.Box
import ObjectRuntime.Proofs.Container.Map
set_option autoImplicit false

/-!
# Maps that keep the order of their keys

Entries that are put into a map one after another leave one entry for each key, in the order in which
the keys come first, with the value that comes last (`ordered`).  What makes two keys the same is
their identity: strings have that of their content, and any other object its own.  A number that is
an argument has none, since a new box is made for it every time.
-/

namespace ObjectRuntime

/-! ## Entries in order -/

section Ordered

variable {α β α' β' : Type} {same : α → α → Bool} {same' : α' → α' → Bool}

/-- The entries with another key. -/
def apart (same : α → α → Bool) (k : α) (entries : List (α × β)) : List (α × β) :=
  entries.filter fun e => !same k e.1

theorem mem_apart {k : α} {e : α × β} {entries : List (α × β)} :
    e ∈ apart same k entries ↔ e ∈ entries ∧ same k e.1 = false := by
  simp [apart]

theorem length_apart_le (k : α) (entries : List (α × β)) :
    (apart same k entries).length ≤ entries.length := List.length_filter_le _ _

/-- The value of the last entry with the key, if there is one. -/
def latest (same : α → α → Bool) (k : α) (v : β) (entries : List (α × β)) : β :=
  ((entries.filter fun e => same k e.1).getLast?.map Prod.snd).getD v

/-- One entry for each key, in the order in which the keys come first, with the value that comes
last. -/
def ordered (same : α → α → Bool) : List (α × β) → List (α × β)
  | [] => []
  | (k, v) :: rest => (k, latest same k v rest) :: ordered same (apart same k rest)
termination_by entries => entries.length
decreasing_by exact Nat.lt_succ_of_le (length_apart_le k rest)

@[simp] theorem ordered_nil : ordered same ([] : List (α × β)) = [] := by rw [ordered]

theorem ordered_cons (k : α) (v : β) (rest : List (α × β)) :
    ordered same ((k, v) :: rest) =
      (k, latest same k v rest) :: ordered same (apart same k rest) := by rw [ordered]

theorem latest_mem (k : α) (v : β) (rest : List (α × β)) :
    latest same k v rest = v ∨ ∃ k', (k', latest same k v rest) ∈ rest := by
  unfold latest
  cases hlast : (rest.filter fun e => same k e.1).getLast? with
  | none => exact .inl rfl
  | some d => exact .inr ⟨d.1, List.mem_of_mem_filter (List.mem_of_getLast? hlast)⟩

/-- One more entry is put into the map. -/
theorem ordered_append (same : Ref → Ref → Bool) (e : Ref × Ref) (entries : List (Ref × Ref)) :
    ordered same (entries ++ [e]) = insertEntry same e.1 e.2 (ordered same entries) := by
  induction entries using ordered.induct same with
  | case1 =>
      obtain ⟨k, v⟩ := e
      simp [ordered_cons, latest, apart, insertEntry]
  | case2 k v rest ih =>
      rw [List.cons_append, ordered_cons, ordered_cons, insertEntry]
      cases hsame : same k e.1 with
      | true => simp [latest, apart, hsame]
      | false =>
          have hapart : apart same k (rest ++ [e]) = apart same k rest ++ [e] := by
            simp [apart, hsame]
          rw [hapart, ih]
          simp [latest, hsame]

/-- Entries put in one after another. -/
theorem foldl_insertEntry_eq_ordered (same : Ref → Ref → Bool) (entries : List (Ref × Ref)) :
    entries.foldl (fun es e => insertEntry same e.1 e.2 es) [] = ordered same entries := by
  induction entries using List.reverseRecOn with
  | nil => rw [ordered_nil, List.foldl_nil]
  | append_singleton entries e ih =>
      rw [List.foldl_append, ih, ordered_append, List.foldl_cons, List.foldl_nil]

/-- The keys and the values are some of those given. -/
theorem mem_of_mem_ordered {entries : List (α × β)} {e : α × β} (he : e ∈ ordered same entries) :
    (∃ v, (e.1, v) ∈ entries) ∧ ∃ k, (k, e.2) ∈ entries := by
  induction entries using ordered.induct same with
  | case1 => simp at he
  | case2 k v rest ih =>
      rw [ordered_cons] at he
      rcases List.mem_cons.mp he with rfl | he
      · refine ⟨⟨v, List.mem_cons_self⟩, ?_⟩
        rcases latest_mem k v rest with hv | ⟨k', hk'⟩
        · exact ⟨k, List.mem_cons.mpr (.inl (by rw [hv]))⟩
        · exact ⟨k', List.mem_cons_of_mem _ hk'⟩
      · obtain ⟨⟨v', hv⟩, k', hk⟩ := ih he
        exact ⟨⟨v', List.mem_cons_of_mem _ (mem_apart.mp hv).1⟩,
          k', List.mem_cons_of_mem _ (mem_apart.mp hk).1⟩

/-- Every key that is given is there, or one that is the same. -/
theorem exists_mem_ordered {entries : List (α × β)} {e : α × β} (he : e ∈ entries) :
    ∃ d ∈ ordered same entries, d.1 = e.1 ∨ same d.1 e.1 = true := by
  induction entries using ordered.induct same with
  | case1 => cases he
  | case2 k v rest ih =>
      rw [ordered_cons]
      rcases List.mem_cons.mp he with rfl | he
      · exact ⟨_, List.mem_cons_self, .inl rfl⟩
      cases hsame : same k e.1 with
      | true => exact ⟨_, List.mem_cons_self, .inr hsame⟩
      | false =>
          obtain ⟨d, hd, hkey⟩ := ih (mem_apart.mpr ⟨he, hsame⟩)
          exact ⟨d, List.mem_cons_of_mem _ hd, hkey⟩

/-- No two keys are the same. -/
theorem pairwise_ordered (same : α → α → Bool) (entries : List (α × β)) :
    (ordered same entries).Pairwise fun e d => same e.1 d.1 = false := by
  induction entries using ordered.induct same with
  | case1 => simp
  | case2 k v rest ih =>
      rw [ordered_cons]
      refine List.pairwise_cons.mpr ⟨fun d hd => ?_, ih⟩
      obtain ⟨⟨v', hv⟩, -⟩ := mem_of_mem_ordered hd
      exact (mem_apart.mp hv).2

/-- Entries made of others, of which the same keys are the same. -/
theorem forall₂_ordered {K : α → α' → Prop} {V : β → β' → Prop}
    (made : List ((α × β) × (α' × β')))
    (hmade : ∀ q ∈ made, K q.1.1 q.2.1 ∧ V q.1.2 q.2.2)
    (hsame : made.Pairwise fun q p => same' q.2.1 p.2.1 = same q.1.1 p.1.1) :
    List.Forall₂ (fun e e' => K e.1 e'.1 ∧ V e.2 e'.2)
      (ordered same (made.map Prod.fst)) (ordered same' (made.map Prod.snd)) := by
  induction hn : made.length using Nat.strong_induction_on generalizing made with
  | _ n ih =>
  cases made with
  | nil => simp
  | cons q rest =>
      obtain ⟨⟨k, v⟩, k', v'⟩ := q
      obtain ⟨⟨hk, hv⟩, hrest⟩ := List.forall_mem_cons.mp hmade
      obtain ⟨hkeys, hpairs⟩ := List.pairwise_cons.mp hsame
      -- the first key is the same as others on both sides alike
      have hlike : (rest.filter fun q => same' k' q.2.1) = rest.filter fun q => same k q.1.1 :=
        List.filter_congr hkeys
      have hother : (rest.filter fun q => !same' k' q.2.1) = rest.filter fun q => !same k q.1.1 :=
        List.filter_congr fun q hq => congrArg _ (hkeys q hq)
      have hshorter := List.length_filter_le (fun q => !same k q.1.1) rest
      have htail := ih _ (by rw [← hn]; exact Nat.lt_succ_of_le hshorter)
        (rest.filter fun q => !same k q.1.1) (fun q hq => hrest q (List.mem_of_mem_filter hq))
        (hpairs.sublist List.filter_sublist) rfl
      simp only [List.map_cons, ordered_cons, latest, apart, List.filter_map, Function.comp_def,
        hlike, hother]
      refine .cons ⟨hk, ?_⟩ htail
      rw [List.getLast?_map, List.getLast?_map]
      cases hlast : (rest.filter fun q => same k q.1.1).getLast? with
      | none => exact hv
      | some q => exact (hrest q (List.mem_of_mem_filter (List.mem_of_getLast? hlast))).2

end Ordered

/-! ## Identities of keys -/

/-- What makes keys the same: nothing, the content of a string, or an object that is no string. -/
inductive KeyIdentity where
  | nothing
  | content (s : String)
  | object (a : ObjId)
  deriving DecidableEq, Repr

namespace World

variable {κ : Type} {w w' : World κ} {k l : Ref} {v u : Value} {a : ObjId}

/-- The identity of a key in a map. -/
def keyIdentity (w : World κ) : Ref → KeyIdentity
  | none => .nothing
  | some a => (w.text? a).elim (.object a) .content

theorem keyIdentity_eq_nothing : w.keyIdentity k = .nothing ↔ k = none := by
  cases k with
  | none => simp [keyIdentity]
  | some a => cases htext : w.text? a <;> simp [keyIdentity, htext]

theorem keyIdentity_eq_content {s : String} :
    w.keyIdentity k = .content s ↔ k.bind w.text? = some s := by
  cases k with
  | none => simp [keyIdentity]
  | some a => cases htext : w.text? a <;> simp [keyIdentity, htext]

theorem keyIdentity_eq_object :
    w.keyIdentity k = .object a ↔ k = some a ∧ w.text? a = none := by
  cases k with
  | none => simp [keyIdentity]
  | some b =>
      cases htext : w.text? b with
      | none =>
          simp only [keyIdentity, htext, Option.elim_none, KeyIdentity.object.injEq,
            Option.some.injEq, iff_self_and]
          rintro rfl
          exact htext
      | some s =>
          simp only [keyIdentity, htext, Option.elim_some, reduceCtorEq, Option.some.injEq,
            false_iff, not_and]
          rintro rfl
          simp [htext]

/-- Keys are the same if their identities are. -/
theorem sameKey_iff_identity : w.sameKey k l = true ↔ w.keyIdentity k = w.keyIdentity l := by
  rw [sameKey]
  cases hl : w.keyIdentity l with
  | nothing =>
      rw [keyIdentity_eq_nothing] at hl ⊢
      subst hl
      cases k <;> simp
  | content s =>
      rw [keyIdentity_eq_content] at hl ⊢
      rw [hl]
      cases hk : k.bind w.text? with
      | none =>
          simp only [beq_iff_eq, reduceCtorEq, iff_false]
          rintro rfl
          cases hl.symm.trans hk
      | some s' => simp
  | object a =>
      rw [keyIdentity_eq_object] at hl ⊢
      obtain ⟨rfl, htext⟩ := hl
      rw [Option.bind_some, htext]
      simp

/-- The identity of an argument that is used as a key.  Numbers have none. -/
def argumentIdentity? (w : World κ) : Value → Option KeyIdentity
  | .null => some .nothing
  | .text s => some (.content s)
  | .object _ a => some (w.keyIdentity (some a))
  | _ => none

/-- The content of a string, plain or an object. -/
def stringContent? (w : World κ) : Value → Option String
  | .text s => some s
  | v => w.carriedText? v

theorem argumentIdentity?_eq_nothing : w.argumentIdentity? v = some .nothing ↔ v = .null := by
  cases v <;> simp [argumentIdentity?, keyIdentity_eq_nothing]

theorem argumentIdentity?_eq_content {s : String} :
    w.argumentIdentity? v = some (.content s) ↔ w.stringContent? v = some s := by
  cases v <;> simp [argumentIdentity?, stringContent?, carriedText?, Value.object?,
    keyIdentity_eq_content]

theorem argumentIdentity?_eq_object :
    w.argumentIdentity? v = some (.object a) ↔ v.object? = some a ∧ w.text? a = none := by
  cases v <;> simp [argumentIdentity?, Value.object?, keyIdentity_eq_object]

theorem argumentIdentity?_of_object (h : v.object? = some a) :
    w.argumentIdentity? v = some (w.keyIdentity (some a)) := by
  cases v with
  | object tag b =>
      cases h
      rfl
  | _ => cases h

/-- Two arguments, each as it is in the world of its call, are the same key. -/
def SameArgument (w : World κ) (v : Value) (w' : World κ) (u : Value) : Prop :=
  w.argumentIdentity? v ≠ none ∧ w'.argumentIdentity? u = w.argumentIdentity? v

instance : Decidable (SameArgument w v w' u) := inferInstanceAs (Decidable (_ ∧ _))

theorem sameArgument_iff_identity : SameArgument w v w' u ↔
    ∃ i, w.argumentIdentity? v = some i ∧ w'.argumentIdentity? u = some i := by
  unfold SameArgument
  cases w.argumentIdentity? v <;> simp

/-- Two arguments of one call are the same key if both are strings with the same content, both are
nothing, or both carry the same object. -/
theorem sameArgument_iff : SameArgument w v w u ↔
    (∃ s, w.stringContent? v = some s ∧ w.stringContent? u = some s) ∨ (v = .null ∧ u = .null) ∨
      ∃ a, v.object? = some a ∧ u.object? = some a := by
  rw [sameArgument_iff_identity]
  constructor
  · rintro ⟨i, hv, hu⟩
    cases i with
    | nothing =>
        exact .inr (.inl ⟨argumentIdentity?_eq_nothing.mp hv, argumentIdentity?_eq_nothing.mp hu⟩)
    | content s =>
        exact .inl ⟨s, argumentIdentity?_eq_content.mp hv, argumentIdentity?_eq_content.mp hu⟩
    | object a =>
        exact .inr (.inr ⟨a, (argumentIdentity?_eq_object.mp hv).1,
          (argumentIdentity?_eq_object.mp hu).1⟩)
  · rintro (⟨s, hv, hu⟩ | ⟨rfl, rfl⟩ | ⟨a, hv, hu⟩)
    · exact ⟨_, argumentIdentity?_eq_content.mpr hv, argumentIdentity?_eq_content.mpr hu⟩
    · exact ⟨.nothing, rfl, rfl⟩
    · exact ⟨_, argumentIdentity?_of_object hv, argumentIdentity?_of_object hu⟩

@[simp] theorem argumentIdentity?_number (content : BoxContent) :
    w.argumentIdentity? content.value = none := by cases content <;> rfl

end World

end ObjectRuntime

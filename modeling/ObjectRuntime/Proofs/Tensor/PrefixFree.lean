import ObjectRuntime.Proofs.Tensor.Blob
set_option autoImplicit false

/-!
# Blobs are prefix-free

A step looks at the bytes that it reads and at no others, so it reads the same when more bytes stand
behind them.  Hence bytes that are read as a whole are neither a proper beginning of such bytes nor
do they begin with some.
-/

namespace ObjectRuntime.Blob.Step

variable {α β : Type} {step : Step α} {next : α → Step β} {a a' : α} {blob more : Bytes}

/-- The step reads the same if more bytes follow, and hands them on. -/
def Local (step : Step α) : Prop :=
  ∀ total rest a after, step total rest = .ok (a, after) →
    ∀ total' more, step total' (rest ++ more) = .ok (a, after ++ more)

theorem Local.pure (a : α) : Local (Pure.pure a : Step α) := by
  intro total rest b after h total' more
  cases h
  rfl

theorem Local.bind (hfirst : Local step) (hnext : ∀ a, Local (next a)) : Local (step >>= next) := by
  intro total rest b after h total' more
  change Step.bind step next total rest = _ at h
  show Step.bind step next total' _ = _
  rw [Step.bind] at h ⊢
  cases hstep : step total rest with
  | error defect =>
      rw [hstep] at h
      cases h
  | ok read =>
      rw [hstep] at h
      rw [hfirst _ _ _ _ hstep total' more]
      exact hnext _ _ _ _ _ h total' more

theorem local_tag (expected : Nat) : Local (tag expected) := by
  intro total rest _ after h total' more
  rw [tag] at h ⊢
  split at h
  · rename_i htag
    cases h
    have hlength : 8 ≤ rest.length := by
      have := congrArg List.length htag
      rw [List.length_take, Bytes.length_ofNat] at this
      omega
    rw [List.take_append_of_le_length hlength, if_pos htag, List.drop_append_of_le_length hlength]
  · cases h

theorem local_number (width : Nat) : Local (number width) := by
  intro total rest n after h total' more
  rw [number] at h ⊢
  split at h
  · rename_i hlength
    cases h
    rw [if_pos (hlength.trans (by simp)), List.take_append_of_le_length hlength,
      List.drop_append_of_le_length hlength]
  · cases h

theorem local_machineInt (k : IntKind) : Local (machineInt k) :=
  (local_number _).bind fun _ => .pure _

theorem Local.times (hstep : Local step) : ∀ count, Local (times step count)
  | 0 => .pure []
  | count + 1 => hstep.bind fun _ => (Local.times hstep count).bind fun _ => .pure _

theorem local_data : Local data := by
  refine (local_number 8).bind fun length => ?_
  intro total rest bytes after h total' more
  simp only at h ⊢
  split at h
  · rename_i hlength
    cases h
    rw [if_pos (hlength.trans (by simp)), List.take_append_of_le_length hlength,
      List.drop_append_of_le_length hlength]
  · cases h

theorem local_name : Local name := by
  intro total rest s after h total' more
  rw [name] at h ⊢
  cases hdata : data total rest with
  | error defect =>
      rw [hdata] at h
      cases h
  | ok read =>
      obtain ⟨bytes, behind⟩ := read
      rw [hdata] at h
      rw [local_data _ _ _ _ hdata total' more]
      cases htext : Utf8.decode? bytes with
      | none =>
          simp only [htext] at h
          cases h
      | some text =>
          simp only [htext] at h ⊢
          cases h
          rfl

theorem local_tensor : Local tensor :=
  (local_tag _).bind fun _ => (local_number _).bind fun _ => (local_number _).bind fun _ =>
    (local_machineInt _).bind fun _ => (local_machineInt _).bind fun _ =>
    (local_number _).bind fun _ => (local_number _).bind fun _ => (local_number _).bind fun _ =>
    ((local_machineInt _).times _).bind fun _ => local_data.bind fun _ => .pure _

theorem local_params : Local params :=
  (local_tag _).bind fun _ => (local_number _).bind fun _ => (local_number _).bind fun _ =>
    (local_name.times _).bind fun _ => (local_number _).bind fun _ =>
    (local_tensor.times _).bind fun _ => .pure _

/-- The whole of the bytes has been read. -/
theorem readAll_eq_ok : readAll step blob = .ok a ↔ step blob.length blob = .ok (a, []) := by
  rw [readAll]
  cases hstep : step blob.length blob with
  | error defect =>
      constructor
      · intro h
        cases h
      · intro h
        cases h
  | ok read =>
      obtain ⟨b, rest⟩ := read
      cases rest with
      | nil => simp
      | cons => simp

/-- Nothing that starts with the bytes is read as a whole. -/
theorem Local.readAll_append (hstep : Local step) (hread : readAll step blob = .ok a)
    (hmore : more ≠ []) : ∃ defect, readAll step (blob ++ more) = .error defect := by
  cases hwhole : readAll step (blob ++ more) with
  | error defect => exact ⟨defect, rfl⟩
  | ok b =>
      have hlonger := hstep _ _ _ _ (readAll_eq_ok.mp hread) (blob ++ more).length more
      rw [readAll_eq_ok.mp hwhole] at hlonger
      cases hlonger
      exact absurd rfl hmore

/-- No proper beginning of the bytes is read as a whole. -/
theorem Local.readAll_prefix (hstep : Local step) (hread : readAll step (blob ++ more) = .ok a)
    (hmore : more ≠ []) : ∃ defect, readAll step blob = .error defect := by
  cases hpart : readAll step blob with
  | error defect => exact ⟨defect, rfl⟩
  | ok b =>
      obtain ⟨defect, hwhole⟩ := hstep.readAll_append hpart hmore
      cases hwhole.symm.trans hread

end ObjectRuntime.Blob.Step

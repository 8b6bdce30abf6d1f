import ObjectRuntime.Proofs.Container.Elementwise
import ObjectRuntime.Proofs.Container.OrderedMap
set_option autoImplicit false

/-!
# Values that are stored

A container holds a reference for each value that has been put into it: nothing for nothing, the
object that a value carries, a new string for a text and a new box for a number (`World.Stored`).
Which of them are the same key is settled by the values alone: a new box has an identity of its own.
-/

namespace ObjectRuntime

open ObjectClass (Vocabulary)
open Run (Borrowed)
open World (Proceeds Ready Since)

variable {κ : Type} {P : κ → Prop} {w w' w₁ : World κ} {cs : List ObjectClass}
  {others held : List ObjId} {a b x : ObjId} {c d : ObjectClass} {r s : Ref} {v u : Value}
  {payload : Payload κ}

namespace World

/-! ## Objects of final classes -/

theorem isLeaf_box (content : BoxContent) : content.cls.IsLeaf := by
  refine ObjectClass.isLeaf_of_boxing ?_
  cases content <;> simp [BoxContent.cls]

theorem fills_box (w : World κ) (content : BoxContent) : w.Fills content.cls content.payload := by
  refine fills_plain w ?_ ?_ ?_ ?_
  all_goals cases content
  all_goals simp [BoxContent.cls, BoxContent.payload] <;> decide

namespace Ready

variable (h : Ready P cs others held w) (hcs : Vocabulary cs)
include h hcs

/-- An object of a class below the root belongs to no other class but the root. -/
theorem isInstance_leaf (hclass : w.OfClass b c) (hleaf : c.IsLeaf) (hd : d ∈ cs) :
    w.recalled.isInstance b d = decide (d = .root ∨ d = c) := by
  have hindex := h.regular.index?_classIndex hclass
  rw [Bool.eq_iff_iff, decide_eq_true_iff]
  constructor
  · intro hmember
    rw [isInstance_recalled h.regular] at hmember
    exact h.equipped.eq_of_isMember hcs (hcs.builtins c hleaf.builtin) hleaf.ne_root hleaf.base hd
      hindex hmember
  · rintro (rfl | rfl)
    · exact isInstance_root _ _
    · rw [isInstance_recalled h.regular]
      exact (h.regular.isMember_leaf hleaf).mpr hindex

/-- A box travels as the number in it. -/
theorem classify_box {content : BoxContent} (hat : w.ObjectAt b content.cls content.payload)
    (moved : Bool) : w.recalled.classify b moved = content.value := by
  have hleaf := isLeaf_box content
  have hmember : ∀ d ∈ ObjectClass.builtins,
      w.recalled.isInstance b d = decide (d = .root ∨ d = content.cls) := fun d hd =>
    h.isInstance_leaf hcs hat.cls hleaf (hcs.builtins d hd)
  have hcontent : w.recalled.payload? b = some content.payload := hat.content
  simp only [classify, boxed?, hcontent, hmember .tensor (by decide), hmember .module (by decide),
    hmember .function (by decide), hmember .boxBool (by decide), hmember .boxInt (by decide),
    hmember .boxFloat (by decide)]
  cases content <;> rfl

/-- An object of another such class travels as it is. -/
theorem classify_other (hclass : w.OfClass b c) (hleaf : c.IsLeaf)
    (hother : ∀ d ∈ Run.travelClasses, d ≠ c) : w.recalled.classify b false = .object .object b := by
  have hmember : ∀ d ∈ Run.travelClasses, w.recalled.isInstance b d = false := by
    intro d hd
    rw [h.isInstance_leaf hcs hclass hleaf (Run.covered_travelClasses hcs.covers d hd)]
    have hroot : ∀ d ∈ Run.travelClasses, d ≠ .root := by decide
    simp [hroot d hd, hother d hd]
  simp only [classify, boxed?, hmember .tensor (by decide), hmember .module (by decide),
    hmember .function (by decide), hmember .boxBool (by decide), hmember .boxInt (by decide),
    hmember .boxFloat (by decide)]
  cases w.recalled.payload? b <;> rfl

end Ready

/-! ## Worlds that stay ready -/

namespace Ready

/-- What is well made may count among what others hold. -/
theorem adopt {ids : List ObjId} (h : Ready P cs others held w) (hids : ∀ x ∈ ids, x ∈ held)
    (hmade : ∀ x, w.heap.Reachable ids x → w.InOrder x) : Ready P cs (ids ++ others) held w := by
  refine ⟨h.equipped, h.balanced, fun x hx => ?_, ?_⟩
  · exact (List.mem_append.mp hx).elim (hids x) (h.among x)
  · rintro x ⟨y, hy, hyx⟩
    rcases List.mem_append.mp hy with hy | hy
    · exact hmade x ⟨y, hy, hyx⟩
    · exact h.made x ⟨y, hy, hyx⟩

/-- References are given up. -/
theorem releases {ids : List ObjId} (h : Ready P cs others (ids ++ held) w) (hcs : Vocabulary cs)
    (hamong : ∀ x ∈ others, x ∈ held) :
    Ready P cs others held (w.withHeap (ids.foldl Heap.release w.heap)) ∧
      w.Continues cs others (w.withHeap (ids.foldl Heap.release w.heap)) := by
  have hheld : w.Balanced P (ids ++ ([] ++ held)) := h.balanced
  exact h.spends hcs hamong (Run.conserves_releases [] [] hheld) (Run.advances_releaseAll ids) rfl

/-- An object of a class of the vocabulary has been made or changed, and is well made. -/
theorem renews {keep : List ObjId} (h : Ready P cs (payload.references ++ others) keep w)
    (hcs : Vocabulary cs) (hc : c ∈ cs) (hrenews : w.Renews P held b c payload w')
    (hadvanced : w.types.Advanced (· ∈ cs) w'.types) (hfills : w.Fills c payload)
    (hamong : ∀ x ∈ others, x ∈ held) : Ready P cs (b :: others) (b :: held) w' := by
  have hlater := (TypeTable.Enlarged.of_advanced hcs h.regular hadvanced).later
  have hbelow : Since w payload.references w' := (hrenews.proceeds hlater).since
  have hothers : Since w others w' := hrenews.since.mono hamong
  have hparts : Ready P cs payload.references keep w := h.mono fun _ => List.mem_append_left _
  have hrest : Ready P cs others keep w := h.mono fun _ => List.mem_append_right _
  have hequipped := h.equipped.advanced hcs hadvanced
  refine ⟨hequipped, hrenews.balanced, ?_, ?_⟩
  · exact List.forall_mem_cons.mpr
      ⟨List.mem_cons_self, fun x hx => List.mem_cons_of_mem _ (hamong x hx)⟩
  rintro x ⟨y, hy, hyx⟩
  rcases List.mem_cons.mp hy with rfl | hy
  · rcases Relation.reflTransGen_iff_eq_or_transGen.mp hyx with rfl | hyx
    · refine hrenews.made.inOrder hequipped hcs hc ?_
      exact hfills.since hbelow hparts.balanced hparts.among fun _ hx => hx
    · obtain ⟨-, hreach⟩ := hrenews.back (fun _ hx => .of_mem hx) hparts.balanced hparts.among hyx
      exact hparts.inOrder hcs hbelow hadvanced hreach
  · exact hrest.inOrder hcs hothers hadvanced (hrest.reachable_back hothers ⟨y, hy, hyx⟩)

/-- A reference that travels as an object becomes the value that carries it. -/
theorem encodeRef_of_object (h : Ready P cs others held w) (hcs : Vocabulary cs)
    (hr : w.Reaches others r) (hobject : (w.recalled.classifyRef r false).object? = some a) :
    ∃ w', Run.encodeRef r false w = (.ok (w.recalled.classifyRef r false), w') ∧
      Ready P cs others held w' ∧ w.Continues cs others w' := by
  obtain ⟨w₁, htravel⟩ := h.travel hcs hr
  refine ⟨w₁, ?_, h.quiet hcs (Run.quiet_travel r false) (Run.advances_travel hcs.covers r false)
    htravel⟩
  rw [Run.encodeRef, run_bind_of_ok (Run.releasingOnFault_of_ok htravel), hobject]
  rfl

/-- A reference that the caller holds becomes the value that carries it, or the number in it. -/
theorem encodeRef (h : Ready P cs others (r.toList ++ held) w) (hcs : Vocabulary cs)
    (hr : w.Reaches others r) (hamong : ∀ x ∈ others, x ∈ held) :
    ∃ w', Run.encodeRef r false w = (.ok (w.recalled.classifyRef r false), w') ∧
      Ready P cs others ((w.recalled.classifyRef r false).object?.toList ++ held) w' ∧
      w.Continues cs others w' := by
  cases hobject : (w.recalled.classifyRef r false).object? with
  | some a =>
      obtain ⟨w', hrun, h', hcontinues⟩ := h.encodeRef_of_object hcs hr hobject
      obtain rfl := Run.object?_classifyRef hobject
      exact ⟨w', hrun, h', hcontinues⟩
  | none =>
      obtain ⟨w₁, htravel⟩ := h.travel hcs hr
      obtain ⟨h₁, hcontinues⟩ := h.quiet hcs (Run.quiet_travel r false)
        (Run.advances_travel hcs.covers r false) htravel
      obtain ⟨h₂, hcontinues₂⟩ := h₁.releases hcs hamong
      rw [Run.encodeRef, run_bind_of_ok (Run.releasingOnFault_of_ok htravel), hobject]
      exact ⟨_, rfl, h₂, hcontinues.trans hcontinues₂⟩

end Ready

/-! ## What values become -/

/-- What a value has become in a container since there was the world `w`. -/
inductive Stored (w w' : World κ) : Value → Ref → Prop
  | null : Stored w w' .null none
  | object (tag : ObjectTag) (a : ObjId) : Stored w w' (.object tag a) (some a)
  | text {b : ObjId} (s : String) (fresh : w.heap.cells.size ≤ b.index)
      (made : w'.ObjectAt b .string (.text s)) : Stored w w' (.text s) (some b)
  | number {b : ObjId} (content : BoxContent) (fresh : w.heap.cells.size ≤ b.index)
      (made : w'.ObjectAt b content.cls content.payload) : Stored w w' content.value (some b)

namespace Stored

/-- It stays so while it is held. -/
theorem later (h : Stored w w₁ v r) (hproceeds : w₁.Proceeds others w')
    (hr : w₁.Reaches others r) : Stored w w' v r := by
  cases h with
  | null => exact .null
  | object tag a => exact .object tag a
  | text s fresh made => exact .text s fresh (made.since hproceeds.since (hr _ rfl))
  | number content fresh made =>
      exact .number content fresh (made.since hproceeds.since (hr _ rfl))

/-- What has been made later has been made since. -/
theorem earlier (h : Stored w₁ w' v r) (hproceeds : w.Proceeds others w₁) : Stored w w' v r := by
  cases h with
  | null => exact .null
  | object tag a => exact .object tag a
  | text s fresh made => exact .text s (hproceeds.size_le.trans fresh) made
  | number content fresh made => exact .number content (hproceeds.size_le.trans fresh) made

end Stored

/-- A conversion to a reference to any object stores the value. -/
theorem Ready.stored (h : Ready P cs others held w) (hcs : Vocabulary cs)
    (hrun : Run.decodeRef .object v w = (.ok r, w')) : Stored w w' v r := by
  have hobject : Run.objectOf .root v w = (.ok r, w') := hrun
  have hboxed : ∀ {p : ObjectClass × Payload κ} {rest}, boxings v = p :: rest →
      ∃ b, r = some b ∧ w'.ObjectAt b p.1 p.2 ∧ w.heap.cells.size ≤ b.index := by
    intro p rest hboxings
    obtain ⟨b, w₁, hmade, hat, hnew⟩ := h.objectOf_root hcs hboxings
    cases hmade.symm.trans hobject
    exact ⟨b, rfl, hat, hnew⟩
  have hother : (boxings v : List (ObjectClass × Payload κ)) = [] → v.object? = none →
      v ≠ .null → False := by
    intro hempty hplain hnull
    rcases h.objectOf_plain hcs hcs.root hplain hnull with ⟨p, hp, -⟩ | ⟨-, cause, w₁, herror⟩
    · rw [hempty] at hp
      cases hp
    · cases herror.symm.trans hobject
  cases v with
  | null =>
      cases hobject
      exact .null
  | object tag a =>
      obtain ⟨_, w₁, -, hmember⟩ := run_bind_eq_ok.mp hobject
      obtain rfl := Run.eq_of_memberOf hmember
      exact .object tag a
  | text s =>
      obtain ⟨b, rfl, hat, hnew⟩ := hboxed rfl
      exact .text s hnew hat
  | int n =>
      obtain ⟨b, rfl, hat, hnew⟩ := hboxed rfl
      exact .number (.int n) hnew hat
  | float y =>
      obtain ⟨b, rfl, hat, hnew⟩ := hboxed rfl
      exact .number (.float y) hnew hat
  | bool y =>
      obtain ⟨b, rfl, hat, hnew⟩ := hboxed rfl
      exact .number (.bool y) hnew hat
  | bytes | dataType | device | handle | tensorHandle =>
      exact (hother rfl rfl Value.noConfusion).elim

/-- What has come of a conversion to a reference to any object. -/
theorem Ready.stores (h : Ready P cs others held w) (hcs : Vocabulary cs)
    (hv : Borrowed w others v) (hrun : Run.decodeRef .object v w = (.ok r, w')) :
    Ready P cs others (r.toList ++ held) w' ∧ w.Continues cs others w' ∧ w.Proceeds held w' ∧
      Stored w w' v r := by
  have hwithin : RefType.object.Within (· ∈ cs) := hcs.root
  have hconserves : Run.Conserves P w held Option.toList [] (Run.decodeRef .object v) :=
    Run.converts_decodeRef .object h.balanced fun x hx => h.reachable (hv x hx)
  have hadvances : Run.Advances (· ∈ cs) (Run.decodeRef .object v : Run κ Ref) :=
    Run.advances_decodeRef hcs.covers hwithin v
  obtain ⟨h', hcontinues⟩ := h.after hcs hconserves hadvances hrun
  exact ⟨h', hcontinues, h.proceeds hcs hconserves hadvances hrun, h.stored hcs hrun⟩

/-! ## What is below -/

/-- Nothing is below an object that holds no references. -/
theorem ObjectAt.eq_of_reachable (hat : w.ObjectAt b c payload) (hplain : payload.references = [])
    (hx : w.heap.Reachable [b] x) : x = b := by
  obtain ⟨y, hy, hreach⟩ := hx
  obtain rfl := List.mem_singleton.mp hy
  rcases hreach.cases_head with hsame | ⟨z, ⟨o, ho, hz⟩, -⟩
  · exact hsame.symm
  · obtain ⟨o', ho', rfl⟩ := hat.alive
    obtain rfl := Option.some.inj (ho.symm.trans ho')
    rw [hplain] at hz
    cases hz

/-- Whatever is stored is well made. -/
theorem Stored.inOrder (h : Stored w w' v r) (hready : Ready P cs others held w')
    (hcs : Vocabulary cs) (hv : Borrowed w' others v) (hx : w'.heap.Reachable r.toList x) :
    w'.InOrder x := by
  cases h with
  | null =>
      obtain ⟨_, hy, -⟩ := hx
      cases hy
  | object tag a =>
      refine hready.made x (hx.through fun y hy => ?_)
      obtain rfl := List.mem_singleton.mp hy
      exact hv y rfl
  | text s fresh made =>
      obtain rfl := made.eq_of_reachable rfl hx
      exact made.inOrder hready.equipped hcs (hcs.builtins .string (by decide))
        (fills_plain w' (by decide) (by decide) (by simp) (by simp))
  | number content fresh made =>
      obtain rfl := made.eq_of_reachable content.references_payload hx
      exact made.inOrder hready.equipped hcs (hcs.builtins _ (isLeaf_box content).builtin)
        (fills_box w' content)

/-! ## Stored keys -/

/-- A key that others hold keeps its identity. -/
theorem Since.keyIdentity (h : Since w others w') (hready : Ready P cs others held w)
    (hr : w.Reaches others r) : w'.keyIdentity r = w.keyIdentity r := by
  cases r with
  | none => rfl
  | some a =>
      simp only [World.keyIdentity, text?, h.payload? hready.balanced (hr a rfl) hready.among]

/-- A stored key has the identity of its argument, or is a new box. -/
theorem Stored.keyIdentity (h : Stored w w' v r) (hready : Ready P cs others held w)
    (hsince : Since w others w') (hv : Borrowed w others v) :
    w.argumentIdentity? v = some (w'.keyIdentity r) ∨
      (∃ content : BoxContent, v = content.value) ∧
        ∃ b, r = some b ∧ w.heap.cells.size ≤ b.index ∧ w'.text? b = none := by
  cases h with
  | null => exact .inl rfl
  | object tag a =>
      refine .inl (congrArg some (hsince.keyIdentity hready ?_).symm)
      rintro x ⟨⟩
      exact hv a rfl
  | text s fresh made =>
      refine .inl (congrArg some (keyIdentity_eq_content.mpr ?_).symm)
      simp only [Option.bind_some, text?, made.content]
  | number content fresh made =>
      refine .inr ⟨⟨content, rfl⟩, _, rfl, fresh, ?_⟩
      rw [text?, made.content]
      cases content <;> rfl

/-- Whoever others can reach was there. -/
theorem Ready.index_lt (h : Ready P cs others held w) (hx : w.heap.Reachable others x) :
    x.index < w.heap.cells.size := by
  obtain ⟨o, ho⟩ := h.balanced.alive (h.reachable hx)
  exact Heap.lt_size_of_get? ho

/-- An object that was held before is the one that the value carries. -/
theorem Stored.eq_of_held (h : Stored w w' v r) (hready : Ready P cs others held w)
    (hx : x ∈ held) (hr : r = some x) : v.object? = some x := by
  have hold : x.index < w.heap.cells.size := by
    obtain ⟨o, ho⟩ := hready.balanced.alive (.of_mem hx)
    exact Heap.lt_size_of_get? ho
  cases h with
  | null => cases hr
  | object tag a => exact hr
  | text s fresh made =>
      cases hr
      exact absurd hold (Nat.not_lt.mpr fresh)
  | number content fresh made =>
      cases hr
      exact absurd hold (Nat.not_lt.mpr fresh)

/-- Two stored keys are the same if their arguments are, provided that none has been made twice. -/
theorem Stored.sameKey (hk : Stored w w' v r) (hl : Stored w w' u s)
    (hready : Ready P cs others held w) (hsince : Since w others w') (hv : Borrowed w others v)
    (hu : Borrowed w others u)
    (hapart : ∀ x, r = some x → s = some x → w.heap.Reachable others x) :
    w'.sameKey r s = decide (SameArgument w v w u) := by
  rw [Bool.eq_iff_iff, decide_eq_true_iff, sameKey_iff_identity, sameArgument_iff_identity]
  have hnever : ∀ b, w.heap.cells.size ≤ b.index → r = some b → s = some b → False :=
    fun b hnew hr hs => Nat.not_lt.mpr hnew (hready.index_lt (hapart b hr hs))
  rcases hk.keyIdentity hready hsince hv with hid | ⟨⟨content, rfl⟩, b, rfl, hnew, htext⟩
  · rcases hl.keyIdentity hready hsince hu with hid' | ⟨⟨content, rfl⟩, b, rfl, hnew, htext⟩
    · simp [hid, hid', eq_comm]
    · rw [argumentIdentity?_number, keyIdentity_eq_object.mpr ⟨rfl, htext⟩, keyIdentity_eq_object]
      simp only [reduceCtorEq, and_false, exists_false, iff_false]
      exact fun hsame => hnever b hnew hsame.1 rfl
  · rw [argumentIdentity?_number, keyIdentity_eq_object.mpr ⟨rfl, htext⟩, eq_comm,
      keyIdentity_eq_object]
    simp only [reduceCtorEq, false_and, exists_false, iff_false]
    exact fun hsame => hnever b hnew rfl hsame.1

/-- A key that is there is found under an argument of the same identity. -/
theorem Stored.sameKey_iff {key : Ref} (h : Stored w w' v r) (hready : Ready P cs others held w)
    (hsince : Since w others w') (hv : Borrowed w others v) (hkey : w.Reaches others key) :
    w'.sameKey key r = true ↔ w.argumentIdentity? v = some (w.keyIdentity key) := by
  rw [sameKey_iff_identity, hsince.keyIdentity hready hkey]
  rcases h.keyIdentity hready hsince hv with hid | ⟨⟨content, rfl⟩, b, rfl, hnew, htext⟩
  · rw [hid, Option.some.injEq, eq_comm]
  · rw [argumentIdentity?_number, keyIdentity_eq_object.mpr ⟨rfl, htext⟩, keyIdentity_eq_object]
    simp only [reduceCtorEq, iff_false]
    rintro ⟨rfl, -⟩
    exact Nat.not_lt.mpr hnew (hready.index_lt (hkey b rfl))

/-! ## What comes out -/

/-- The value as which one that has been stored comes back: a number as it was, a text as the string
that holds it, and an object as it travels. -/
inductive ComesOut (w : World κ) : Value → Value → Prop
  | null : ComesOut w .null .null
  | object (tag : ObjectTag) (a : ObjId) : ComesOut w (.object tag a) (w.recalled.classify a false)
  | text {b : ObjId} (s : String) (content : w.payload? b = some (.text s)) :
      ComesOut w (.text s) (.object .object b)
  | number (content : BoxContent) : ComesOut w content.value content.value

/-- A number comes out as it was. -/
theorem ComesOut.eq_of_number (content : BoxContent) (h : ComesOut w content.value u) :
    u = content.value := by
  generalize hv : content.value = v at h
  cases h with
  | number => rfl
  | _ => cases content <;> cases hv

theorem Stored.comesOut (h : Stored w w' v r) (hready : Ready P cs others held w')
    (hcs : Vocabulary cs) : ComesOut w' v (w'.recalled.classifyRef r false) := by
  cases h with
  | null => exact .null
  | object tag a => exact .object tag a
  | @text b s fresh made =>
      have hleaf : ObjectClass.string.IsLeaf := ObjectClass.isLeaf_of_boxing (by decide)
      rw [classifyRef, hready.classify_other hcs made.cls hleaf (by decide)]
      exact .text s made.content
  | number content fresh made =>
      rw [classifyRef, hready.classify_box hcs made false]
      exact .number content

end World

end ObjectRuntime

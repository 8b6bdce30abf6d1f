import ObjectRuntime.Proofs.Container.Completion
import ObjectRuntime.Proofs.Container.Handles
import ObjectRuntime.Proofs.Container.Showing
set_option autoImplicit false

/-!
# Handles that show values

The handles of a program stand beside the values that they show.  The objects that can be reached
from them have stamps, no two the same and all earlier than that of the next operation
(`Handles.Simulation`).  An operation that makes or changes one object keeps this up if it gives the
object the next stamp, and one that changes no object keeps it up anyway.
-/

namespace ObjectRuntime.Handles

open World (Balanced Since)

/-- Handles with the references and with what these show. -/
abbrev Joint := Stack (Ref × PlainValue)

namespace Joint

/-- The references that the handles hold. -/
def held (joint : Joint) : List ObjId := joint.flatMap fun h => h.2.1.toList

/-- The handles as the program with objects has them. -/
def refs (joint : Joint) : Stack Ref := joint.image Prod.fst

/-- The handles as the program with values has them. -/
def values (joint : Joint) : Stack PlainValue := joint.image Prod.snd

@[simp] theorem held_cons (h : HandleType × Ref × PlainValue) (joint : Joint) :
    held (h :: joint) = h.2.1.toList ++ held joint := rfl

@[simp] theorem held_append (joint joint' : Joint) :
    held (joint ++ joint') = held joint ++ held joint' := List.flatMap_append

@[simp] theorem refs_cons (h : HandleType × Ref × PlainValue) (joint : Joint) :
    refs (h :: joint) = (h.1, h.2.1) :: refs joint := rfl

@[simp] theorem values_cons (h : HandleType × Ref × PlainValue) (joint : Joint) :
    values (h :: joint) = (h.1, h.2.2) :: values joint := rfl

/-- Handles of one type hold what they refer to. -/
theorem held_map (t : HandleType) (items : List (Ref × PlainValue)) :
    held (items.map fun p => (t, p)) = (items.map Prod.fst).flatMap Option.toList := by
  simp [held, List.flatMap_map]

/-- So do handles to keys and values. -/
theorem held_pairs (key value : HandleType)
    (pairs : List ((Ref × PlainValue) × (Ref × PlainValue))) :
    held (pairs.flatMap fun p => [(key, p.1), (value, p.2)]) =
      (pairs.map (Prod.map Prod.fst Prod.fst)).flatMap Run.entryReferences := by
  simp only [held, List.flatMap_map, List.flatMap_assoc, List.flatMap_cons, List.flatMap_nil,
    List.append_nil]
  rfl

@[simp] theorem refs_append (joint joint' : Joint) :
    refs (joint ++ joint') = refs joint ++ refs joint' := List.map_append

@[simp] theorem values_append (joint joint' : Joint) :
    values (joint ++ joint') = values joint ++ values joint' := List.map_append

/-- Handles of one type to references that show values. -/
theorem exists_of_elements {R : Ref → PlainValue → Prop} {rs : List Ref} {vs : List PlainValue}
    (t : HandleType) (hrel : List.Forall₂ R rs vs) (htyped : ∀ v ∈ vs, t.mismatch? v = none) :
    ∃ joint : Joint, joint.refs = rs.map (fun r => (t, r)) ∧
      joint.values = vs.map (fun v => (t, v)) ∧ joint.map (fun d => d.2.1) = rs ∧
      ∀ d ∈ joint, R d.2.1 d.2.2 ∧ d.1.mismatch? d.2.2 = none := by
  induction hrel with
  | nil => exact ⟨[], rfl, rfl, rfl, fun d hd => absurd hd List.not_mem_nil⟩
  | @cons r v rs vs hrv _ ih =>
      obtain ⟨hv, htyped⟩ := List.forall_mem_cons.mp htyped
      obtain ⟨joint, hrefs, hvalues, hheld, hall⟩ := ih htyped
      refine ⟨(t, r, v) :: joint, ?_, ?_, ?_, List.forall_mem_cons.mpr ⟨⟨hrv, hv⟩, hall⟩⟩
      · rw [refs_cons, hrefs, List.map_cons]
      · rw [values_cons, hvalues, List.map_cons]
      · rw [List.map_cons, hheld]

/-- Handles to keys and values in turn. -/
theorem exists_of_entries {R : Ref → PlainValue → Prop} {es : List (Ref × Ref)} {ds : Entries}
    (key value : HandleType) (hrel : Alongside R es ds)
    (htyped : ∀ d ∈ ds, key.mismatch? d.1 = none ∧ value.mismatch? d.2 = none) :
    ∃ joint : Joint, joint.refs = es.flatMap (fun e => [(key, e.1), (value, e.2)]) ∧
      joint.values = ds.flatMap (fun d => [(key, d.1), (value, d.2)]) ∧
      joint.map (fun d => d.2.1) = es.flatMap (fun e => [e.1, e.2]) ∧
      ∀ d ∈ joint, R d.2.1 d.2.2 ∧ d.1.mismatch? d.2.2 = none := by
  induction hrel with
  | nil => exact ⟨[], rfl, rfl, rfl, fun d hd => absurd hd List.not_mem_nil⟩
  | @cons e d es ds hed _ ih =>
      obtain ⟨hd, htyped⟩ := List.forall_mem_cons.mp htyped
      obtain ⟨joint, hrefs, hvalues, hheld, hall⟩ := ih htyped
      refine ⟨(key, e.1, d.1) :: (value, e.2, d.2) :: joint, ?_, ?_, ?_, List.forall_mem_cons.mpr
        ⟨⟨hed.1, hd.1⟩, List.forall_mem_cons.mpr ⟨⟨hed.2, hd.2⟩, hall⟩⟩⟩
      · rw [refs_cons, refs_cons, hrefs, List.flatMap_cons]
        rfl
      · rw [values_cons, values_cons, hvalues, List.flatMap_cons]
        rfl
      · rw [List.map_cons, List.map_cons, hheld, List.flatMap_cons]
        rfl

theorem mem_held {h : HandleType × Ref × PlainValue} {joint : Joint} {x : ObjId}
    (hmem : h ∈ joint) (hx : h.2.1 = some x) : x ∈ held joint :=
  List.mem_flatMap.mpr ⟨h, hmem, by simp [hx]⟩

end Joint

variable {κ : Type} {P : κ → Prop} {w w' : World κ} {stamps : ObjId → Nat} {stamp : Nat}
  {others held : List ObjId} {joint joint' rest : Joint} {id : ObjId} {c : ObjectClass}
  {payload : Payload κ} {t : HandleType} {r : Ref} {v : PlainValue}

/-- A reference that can be reached from the handles shows a value. -/
structure Joint.Visible (w : World κ) (stamps : ObjId → Nat) (joint : Joint) (r : Ref)
    (v : PlainValue) : Prop where
  shows : w.Presents stamps r v
  reached : ∀ x, r = some x → w.heap.Reachable joint.held x

namespace Joint.Visible

theorem elements (h : joint.Visible w stamps r v) :
    List.Forall₂ (joint.Visible w stamps) (w.elements r) v.elements := by
  have helems := h.shows.elements
  refine List.forall₂_iff_zip.mpr ⟨helems.length_eq, fun hp =>
    ⟨List.forall₂_zip helems hp, fun x hx => ?_⟩⟩
  have hmem := (List.of_mem_zip hp).1
  cases r with
  | none => cases hmem
  | some a => exact Run.reachable_element (h.reached a rfl) hmem hx

theorem entries (h : joint.Visible w stamps r v) :
    Alongside (joint.Visible w stamps) (w.entries r) v.entries := by
  have hentries := h.shows.entries
  refine List.forall₂_iff_zip.mpr ⟨hentries.length_eq, fun hp => ?_⟩
  have hmem := (List.of_mem_zip hp).1
  obtain ⟨hkey, hvalue⟩ := List.forall₂_zip hentries hp
  cases r with
  | none => cases hmem
  | some a =>
      exact ⟨⟨hkey, fun x hx => Run.reachable_entry (h.reached a rfl) hmem (.inl hx)⟩,
        ⟨hvalue, fun x hx => Run.reachable_entry (h.reached a rfl) hmem (.inr hx)⟩⟩

theorem quiet {α : Type} {x : Run κ α} {answer : Except Fault α}
    (h : joint.Visible w stamps r v) (hx : Run.Quiet x) (hrun : x w = (answer, w')) :
    joint.Visible w' stamps r v := by
  have hs := hx.since w r.toList
  have hheap := (hx w).1
  rw [hrun] at hs hheap
  exact ⟨h.shows.since hs fun x hx => .of_mem (Option.mem_toList.mpr hx),
    fun x hx => hheap ▸ h.reached x hx⟩

end Joint.Visible

/-- The handles show the values, and the stamps tell the objects apart. -/
structure Simulation (P : κ → Prop) (others : List ObjId) (w : World κ) (stamps : ObjId → Nat)
    (stamp : Nat) (joint : Joint) : Prop where
  balanced : w.Balanced P (joint.held ++ others)
  serves : w.ServesHandles
  shows : ∀ h ∈ joint, w.Presents stamps h.2.1 h.2.2
  typed : ∀ h ∈ joint, h.1.mismatch? h.2.2 = none
  distinct : ∀ x y, w.heap.Reachable joint.held x → w.heap.Reachable joint.held y →
    stamps x = stamps y → x = y
  earlier : ∀ x, w.heap.Reachable joint.held x → stamps x < stamp

namespace Simulation

/-- A program that begins has no handles. -/
theorem begin (hb : w.Balanced P others) (hserves : w.ServesHandles) :
    Simulation P others w stamps stamp [] where
  balanced := hb
  serves := hserves
  shows _ hmem := nomatch hmem
  typed _ hmem := nomatch hmem
  distinct := by
    rintro x y ⟨r, hr, -⟩
    cases hr
  earlier := by
    rintro x ⟨r, hr, -⟩
    cases hr

/-- The handles may stand in another order. -/
theorem perm (h : Simulation P others w stamps stamp joint) (hp : List.Perm joint' joint) :
    Simulation P others w stamps stamp joint' := by
  have hheld : List.Perm joint'.held joint.held := hp.flatMap_right _
  have hreach : ∀ {x}, w.heap.Reachable joint'.held x → w.heap.Reachable joint.held x :=
    fun hx => hx.mono fun _ => hheld.mem_iff.mp
  exact ⟨h.balanced.perm (hheld.append_right _), h.serves,
    fun d hd => h.shows d (hp.mem_iff.mp hd), fun d hd => h.typed d (hp.mem_iff.mp hd),
    fun x y hx hy => h.distinct x y (hreach hx) (hreach hy), fun x hx => h.earlier x (hreach hx)⟩

/-- What the second handle holds before what the first one holds. -/
theorem balanced_swap {t' : HandleType} {a : Ref} {u : PlainValue}
    (h : Simulation P others w stamps stamp ((t, r, v) :: (t', a, u) :: rest)) :
    w.Balanced P (a.toList ++ (r.toList ++ (rest.held ++ others))) := by
  refine h.balanced.perm ?_
  simp only [Joint.held_cons, List.append_assoc]
  exact List.perm_append_comm_assoc _ _ _

theorem visible (h : Simulation P others w stamps stamp joint)
    {d : HandleType × Ref × PlainValue} (hd : d ∈ joint) :
    joint.Visible w stamps d.2.1 d.2.2 :=
  ⟨h.shows d hd, fun _ hx => .of_mem (Joint.mem_held hd hx)⟩

/-- Keys compare as the values that they show. -/
theorem comparing (h : Simulation P others w stamps stamp joint) :
    Alongside.Comparing (joint.Visible w stamps) w.sameKey := fun _ _ _ _ ha hb =>
  ha.shows.sameKey_iff hb.shows fun x y hx hy => h.distinct x y (ha.reached x hx) (hb.reached y hy)

theorem later (h : Simulation P others w stamps stamp joint) :
    Simulation P others w stamps (stamp + 1) joint :=
  { h with earlier := fun x hx => Nat.lt_succ_of_lt (h.earlier x hx) }

/-- No object that can be reached from some of the handles has changed, and no more than these can
be reached afterwards. -/
theorem keep (h : Simulation P others w stamps stamp joint) (held : List ObjId)
    (hheld : ∀ x ∈ held, x ∈ joint.held) (hs : Since w held w')
    (hb : w'.Balanced P (joint'.held ++ others)) (hserves : w'.ServesHandles)
    (hshows : ∀ d ∈ joint', w.Presents stamps d.2.1 d.2.2)
    (htyped : ∀ d ∈ joint', d.1.mismatch? d.2.2 = none)
    (hreach : ∀ d ∈ joint', ∀ x, d.2.1 = some x → w.heap.Reachable held x) :
    Simulation P others w' stamps stamp joint' := by
  have hback : ∀ {x}, w'.heap.Reachable joint'.held x → w.heap.Reachable joint.held x := by
    intro x hx
    have hfrom : w'.heap.Reachable held x := by
      refine hx.through fun y hy => ?_
      obtain ⟨d, hd, hy⟩ := List.mem_flatMap.mp hy
      exact hs.reachable (hreach d hd y (Option.mem_toList.mp hy))
    have hsub : ∀ y ∈ held, y ∈ joint.held ++ others :=
      fun y hy => List.mem_append_left _ (hheld y hy)
    exact (hs.intact.back h.balanced.owned hsub hfrom).mono hheld
  exact ⟨hb, hserves, fun d hd => (hshows d hd).since hs (hreach d hd), htyped,
    fun x y hx hy => h.distinct x y (hback hx) (hback hy), fun x hx => h.earlier x (hback hx)⟩

/-- Classes have been looked up. -/
theorem quiet {α : Type} {x : Run κ α} {answer : Except Fault α}
    (h : Simulation P others w stamps stamp joint) (hx : Run.Quiet x) (hrun : x w = (answer, w'))
    (hserves : w'.ServesHandles) : Simulation P others w' stamps stamp joint := by
  have hs := hx.since w joint.held
  have hb := hx.balanced h.balanced
  rw [hrun] at hs hb
  exact h.keep joint.held (fun _ hx => hx) hs hb hserves h.shows h.typed fun d hd =>
    (h.visible hd).reached

/-- A reference is asked whether it is of a type. -/
theorem asked (h : Simulation P others w stamps stamp joint) (hr : joint.Visible w stamps r v)
    (t : HandleType) : ∃ w', Run.askType t.ref r w = (.ok (), w') ∧
      w'.mismatch? t.ref r = t.mismatch? v ∧ joint.Visible w' stamps r v ∧
      Simulation P others w' stamps stamp joint := by
  obtain ⟨_, w', hask, hserves⟩ := Run.completes_askType t r h.serves
  have hquiet := @Run.quiet_askType κ t.ref r
  have hr' := hr.quiet hquiet hask
  exact ⟨w', hask, hr'.shows.mismatch? hserves.regular t, hr', h.quiet hquiet hask hserves⟩

/-- A reference to a value of the type passes the check. -/
theorem downcast (h : Simulation P others w stamps stamp joint) (hr : joint.Visible w stamps r v)
    (htyped : t.mismatch? v = none) : ∃ w', Run.downcast t.ref r w = (.ok r, w') ∧
      joint.Visible w' stamps r v ∧ Simulation P others w' stamps stamp joint := by
  obtain ⟨w', hask, hmismatch, hr', h'⟩ := h.asked hr t
  refine ⟨w', (run_bind_of_ok hask).trans ?_, hr', h'⟩
  rw [Run.query, run_get_bind, World.downcast, hmismatch, htyped]
  rfl

/-- Any other does not. -/
theorem downcast_mismatch {mismatch : String} (h : Simulation P others w stamps stamp joint)
    (hr : joint.Visible w stamps r v) (hmismatched : t.mismatch? v = some mismatch) :
    ∃ w', Run.downcast t.ref r w =
        (.error (.error (.typeMismatch t.ref.typeName mismatch)), w') ∧
      Simulation P others w' stamps stamp joint := by
  obtain ⟨w', hask, hmismatch, -, h'⟩ := h.asked hr t
  refine ⟨w', (run_bind_of_ok hask).trans ?_, h'⟩
  rw [Run.query, run_get_bind, World.downcast, hmismatch, hmismatched]
  rfl

/-- The first handle has been given up. -/
theorem lose (h : Simulation P others w stamps stamp ((t, r, v) :: rest)) :
    Simulation P others { w with heap := r.toList.foldl Heap.release w.heap } stamps stamp
      rest := by
  have hb := h.balanced
  rw [Joint.held_cons, List.append_assoc] at hb
  obtain ⟨hs, hb'⟩ := (Run.conserves_releases [] [] hb).ok () _ rfl
  have hmem : ∀ d ∈ rest, d ∈ (t, r, v) :: rest := fun _ => List.mem_cons_of_mem _
  refine h.keep rest.held (fun x hx => List.mem_append_right _ hx)
    (hs.mono fun _ => List.mem_append_left others) hb' h.serves (fun d hd => h.shows d (hmem d hd))
    (fun d hd => h.typed d (hmem d hd)) fun d hd x hx => .of_mem (Joint.mem_held hd hx)

/-- An object has been made or changed, and a handle to it has come to some of the others. -/
theorem renew (h : Simulation P others w stamps stamp joint)
    (hnew : w.Renews P (rest.held ++ others) id c payload w') (hserves : w'.ServesHandles)
    (hrest : ∀ d ∈ rest, d ∈ joint)
    (hcontent : ∀ x ∈ payload.references, w.heap.Reachable joint.held x)
    (hshows : w'.Presents (Function.update stamps id stamp) (some id) v)
    (htyped : t.mismatch? v = none) :
    Simulation P others w' (Function.update stamps id stamp) (stamp + 1)
      ((t, some id, v) :: rest) := by
  have hheld : ∀ x ∈ rest.held, x ∈ joint.held := by
    intro x hx
    obtain ⟨d, hd, hx⟩ := List.mem_flatMap.mp hx
    exact Joint.mem_held (hrest d hd) (Option.mem_toList.mp hx)
  have hothers : Since w rest.held w' := hnew.since.mono fun _ hx => List.mem_append_left _ hx
  -- what can be reached is the object, or could be reached before and is another
  have hback : ∀ {x}, w'.heap.Reachable (Joint.held ((t, some id, v) :: rest)) x →
      x = id ∨ x ≠ id ∧ w.heap.Reachable joint.held x := by
    rintro x ⟨y, hy, hyx⟩
    rcases List.mem_cons.mp hy with rfl | hy
    · rcases Relation.reflTransGen_iff_eq_or_transGen.mp hyx with rfl | hbelow
      · exact .inl rfl
      · exact .inr (hnew.back hcontent h.balanced (fun _ => List.mem_append_left others) hbelow)
    · have hold : w.heap.Reachable rest.held x := hothers.intact.back h.balanced.owned
        (fun z hz => List.mem_append_left _ (hheld z hz)) ⟨y, hy, hyx⟩
      refine .inr ⟨?_, hold.mono hheld⟩
      rintro rfl
      exact hnew.apart (hold.mono fun _ hz => List.mem_append_left _ hz)
  refine ⟨hnew.balanced, hserves, ?_, ?_, fun x y hx hy heq => ?_, fun x hx => ?_⟩
  · refine List.forall_mem_cons.mpr ⟨hshows, fun d hd => ?_⟩
    refine (h.shows d (hrest d hd)).beside hnew (fun x hx => .of_mem ?_) stamp
    exact List.mem_append_left _ (Joint.mem_held hd hx)
  · exact List.forall_mem_cons.mpr ⟨htyped, fun d hd => h.typed d (hrest d hd)⟩
  · rcases hback hx with rfl | ⟨hnex, holdx⟩
    · rcases hback hy with rfl | ⟨hney, holdy⟩
      · rfl
      · rw [Function.update_self, Function.update_of_ne hney] at heq
        exact absurd heq.symm (Nat.ne_of_lt (h.earlier y holdy))
    · rcases hback hy with rfl | ⟨hney, holdy⟩
      · rw [Function.update_self, Function.update_of_ne hnex] at heq
        exact absurd heq (Nat.ne_of_lt (h.earlier x holdx))
      · rw [Function.update_of_ne hnex, Function.update_of_ne hney] at heq
        exact h.distinct x y holdx holdy heq
  · rcases hback hx with rfl | ⟨hnex, holdx⟩
    · rw [Function.update_self]
      exact Nat.lt_succ_self _
    · rw [Function.update_of_ne hnex]
      exact Nat.lt_succ_of_lt (h.earlier x holdx)

/-- Further handles have been taken to what can be reached from the handles. -/
theorem gain {new : Joint} (h : Simulation P others w stamps stamp joint)
    (hnew : ∀ d ∈ new, joint.Visible w stamps d.2.1 d.2.2 ∧ d.1.mismatch? d.2.2 = none) :
    Simulation P others { w with heap := w.heap.retainAll new.held } stamps stamp
      (new ++ joint) := by
  have hreached : ∀ x ∈ new.held, w.heap.Reachable joint.held x := by
    intro x hx
    obtain ⟨d, hd, hx⟩ := List.mem_flatMap.mp hx
    exact (hnew d hd).1.reached x (Option.mem_toList.mp hx)
  have hb : w.Balanced P ([] ++ (joint.held ++ others)) := h.balanced
  obtain ⟨hs, hb'⟩ := (Run.conserves_retainAll [] [] hb fun x hx =>
    (hreached x hx).mono fun _ => List.mem_append_left others).ok () _ rfl
  refine h.keep joint.held (fun _ hx => hx) (hs.mono fun _ => List.mem_append_left others) ?_
    h.serves (fun d hd => ?_) (fun d hd => ?_) fun d hd => ?_
  · rw [Joint.held_append, List.append_assoc]
    rw [List.append_nil] at hb'
    exact hb'
  all_goals rcases List.mem_append.mp hd with hd | hd
  · exact (hnew d hd).1.shows
  · exact h.shows d hd
  · exact (hnew d hd).2
  · exact h.typed d hd
  · exact (hnew d hd).1.reached
  · exact (h.visible hd).reached

theorem retainRef_eq (r : Ref) (w : World κ) :
    Run.retainRef r w = (.ok (), { w with heap := w.heap.retainAll r.toList }) := by
  cases r <;> rfl

/-- One further handle. -/
theorem take (h : Simulation P others w stamps stamp joint) (hr : joint.Visible w stamps r v)
    (htyped : t.mismatch? v = none) : ∃ w', Run.retainRef r w = (.ok (), w') ∧
      Simulation P others w' stamps stamp ((t, r, v) :: joint) := by
  have hnew : ∀ d ∈ [(t, r, v)],
      joint.Visible w stamps d.2.1 d.2.2 ∧ d.1.mismatch? d.2.2 = none := by
    intro d hd
    obtain rfl := List.mem_singleton.mp hd
    exact ⟨hr, htyped⟩
  have hgain := h.gain hnew
  have hheld : Joint.held [(t, r, v)] = r.toList := List.append_nil _
  rw [hheld] at hgain
  exact ⟨_, retainRef_eq r w, hgain⟩

/-- Any number of further handles. -/
theorem takeAll {new : Joint} (h : Simulation P others w stamps stamp joint)
    (hnew : ∀ d ∈ new, joint.Visible w stamps d.2.1 d.2.2 ∧ d.1.mismatch? d.2.2 = none) :
    ∃ w', keeping (new.map fun d => d.2.1) w = (.ok (), w') ∧
      Simulation P others w' stamps stamp (new ++ joint) := by
  refine ⟨_, ?_, h.gain hnew⟩
  rw [keeping, Run.forM_retainRef, Run.reduceOption_eq_flatMap, List.flatMap_map]
  rfl

/-- A handle has been given another type. -/
theorem retype {t' : HandleType} (h : Simulation P others w stamps stamp ((t, r, v) :: rest))
    (htyped : t'.mismatch? v = none) :
    Simulation P others w stamps stamp ((t', r, v) :: rest) := by
  obtain ⟨hfirst, hothers⟩ := List.forall_mem_cons.mp h.shows
  exact ⟨h.balanced, h.serves, List.forall_mem_cons.mpr ⟨hfirst, hothers⟩,
    List.forall_mem_cons.mpr ⟨htyped, (List.forall_mem_cons.mp h.typed).2⟩, h.distinct, h.earlier⟩

/-- An array has been made or changed. -/
theorem renew_array {elem : HandleType} {elems : List Ref} {vs : List PlainValue}
    (h : Simulation P others w stamps stamp joint)
    (hnew : w.Renews P (rest.held ++ others) id .array (.array elems) w')
    (hserves : w'.ServesHandles) (hrest : ∀ d ∈ rest, d ∈ joint)
    (hvisible : List.Forall₂ (joint.Visible w stamps) elems vs)
    (htyped : ∀ v ∈ vs, elem.mismatch? v = none) :
    Simulation P others w' (Function.update stamps id stamp) (stamp + 1)
      ((.array elem, some id, .array stamp vs) :: rest) := by
  refine h.renew hnew hserves hrest (fun x hx => ?_)
    (.new_array hnew (hvisible.imp fun _ _ hrv => hrv.shows) stamp)
    (HandleType.mismatch?_array_eq_none.mpr (.inr ⟨_, _, rfl, htyped⟩))
  obtain ⟨v, -, hrv⟩ := exists_mem_of_forall₂ hvisible.flip (List.reduceOption_mem_iff.mp hx)
  exact hrv.reached x rfl

/-- A map has been made or changed. -/
theorem renew_map {key value : HandleType} {es : List (Ref × Ref)} {ds : Entries}
    (h : Simulation P others w stamps stamp joint)
    (hnew : w.Renews P (rest.held ++ others) id .map (.map es) w')
    (hserves : w'.ServesHandles) (hrest : ∀ d ∈ rest, d ∈ joint)
    (hvisible : Alongside (joint.Visible w stamps) es ds) (hdistinct : ds.Distinct)
    (htyped : ∀ d ∈ ds, key.mismatch? d.1 = none ∧ value.mismatch? d.2 = none) :
    Simulation P others w' (Function.update stamps id stamp) (stamp + 1)
      ((.map key value, some id, .map stamp ds) :: rest) := by
  refine h.renew hnew hserves hrest (fun x hx => ?_)
    (.new_map hnew (hvisible.imp fun _ _ hed => ⟨hed.1.shows, hed.2.shows⟩) hdistinct stamp)
    (HandleType.mismatch?_map_eq_none.mpr (.inr ⟨_, _, rfl, htyped⟩))
  obtain ⟨e, he, hx⟩ := List.mem_flatMap.mp hx
  obtain ⟨d, -, hkey, hvalue⟩ := exists_mem_of_forall₂ hvisible.flip he
  rcases List.mem_append.mp hx with hx | hx
  · exact hkey.reached x (Option.mem_toList.mp hx)
  · exact hvalue.reached x (Option.mem_toList.mp hx)

end Simulation

end ObjectRuntime.Handles

import ObjectRuntime.Proofs.Container.Conversion
import ObjectRuntime.Proofs.Function.Exactness
import ObjectRuntime.Proofs.Function.MapMaking
set_option autoImplicit false

/-!
# Asking maps

The built-in functions that ask a map are typed: the map, and the key if there is one, are converted
before anything else.  A map of any objects passes as it is, while a key may become a new object, and
what is found under it is settled by its identity (`World.entryOf?`).  The caller holds what the
answer carries, and everything else goes on (`Run.Answers`).

A map that has been made of arguments is an ordered map of them, whatever happens later to anything
else: the functions tell as many keys as there are different ones among the arguments, and find an
argument exactly if it is the same key as one of them (`Builtin.map_orders_arguments`).  A number is
never the same key as another argument.  But the box that the map has made of it is a key, and
whoever takes it out of the list of items finds the entry with it.
-/

namespace ObjectRuntime

open Builtin (anyMap anyObject)
open ObjectClass (Vocabulary)
open Run (Advances Borrowed Quiet)
open World (ComesOut Continues Ready SameArgument Since Stored StoredPair)

variable {κ α : Type} {P : κ → Prop} {w w' w₁ w₂ : World κ} {cs : List ObjectClass}
  {others held made : List ObjId} {m : ObjId} {k : Value} {r key : Ref}
  {es : List (Ref × Ref)} {e : Ref × Ref} {vs : List Value} {p : Value × Value}
  {given : List (Value × Value)}

namespace World

/-! ## Entries that are found -/

/-- The entry that is found under an argument. -/
def entryOf? (w : World κ) (es : List (Ref × Ref)) (k : Value) : Option (Ref × Ref) :=
  es.find? fun e => decide (w.argumentIdentity? k = some (w.keyIdentity e.1))

theorem of_entryOf?_eq_some (h : w.entryOf? es k = some e) :
    e ∈ es ∧ w.argumentIdentity? k = some (w.keyIdentity e.1) := by
  unfold entryOf? at h
  have hfound := List.find?_some h
  exact ⟨List.mem_of_find?_eq_some h, of_decide_eq_true hfound⟩

/-- A lookup finds it when the argument has become a key. -/
theorem Stored.find? (h : Stored w w' k key) (hready : Ready P cs others held w)
    (hsince : Since w others w') (hk : Borrowed w others k) (hm : w.heap.Reachable others m)
    (hcontent : w.payload? m = some (.map es)) :
    Dict.find? w' (some m) key = (w.entryOf? es k).map Prod.snd := by
  have hcontent' : w'.payload? m = some (.map es) :=
    (hsince.payload? hready.balanced hm hready.among).trans hcontent
  have hsame : es.find? (fun e => w'.sameKey e.1 key) = w.entryOf? es k := by
    refine List.find?_congr fun e he => ?_
    rw [Bool.eq_iff_iff, decide_eq_true_iff]
    exact h.sameKey_iff hready hsince hk (Reaches.entry hm hcontent he).1
  rw [Dict.find?, Dict.entries_of_payload hcontent', ← hsame]

theorem mismatch?_object (w : World κ) (r : Ref) : w.mismatch? .object r = none := by
  cases r <;> rfl

namespace Ready

variable (h : Ready P cs others held w) (hcs : Vocabulary cs)
include h hcs

/-! ## Operations that leave objects alone -/

/-- What is held goes on as it is when a program only looks classes up. -/
theorem quietly {x : Run κ α} {b : α} (hx : Quiet x) (hadvances : Advances (· ∈ cs) x)
    (hrun : x w = (.ok b, w')) :
    Ready P cs others held w' ∧ w.Continues cs others w' ∧ w.Proceeds held w' := by
  obtain ⟨h', hcontinues⟩ := h.quiet hcs hx hadvances hrun
  exact ⟨h', hcontinues, h.proceeds hcs (hx.conserves [] h.balanced) hadvances hrun⟩

theorem askLookup (r key : Ref) : ∃ w', Dict.askLookup r key w = (.ok (), w') := by
  rw [Dict.askLookup, run_get_bind]
  split
  · obtain ⟨w', hask, -⟩ := h.askKey hcs key
    exact ⟨w', hask⟩
  · exact ⟨w, rfl⟩

/-- One more reference to what others can reach. -/
theorem retainRef (hr : w.Reaches others r) :
    ∃ w', Run.retainRef r w = (.ok (), w') ∧ Ready P cs others (r.toList ++ held) w' ∧
      w.Continues cs others w' := by
  cases r with
  | none => exact ⟨w, rfl, h, .refl h.regular cs others⟩
  | some a => exact h.retain hcs (hr a rfl)

/-- One more reference to each. -/
theorem retainRefs {rs : List Ref} (hrs : ∀ r ∈ rs, w.Reaches others r) :
    ∃ w', rs.forM Run.retainRef w = (.ok (), w') ∧ Ready P cs others (rs.reduceOption ++ held) w' ∧
      w.Continues cs others w' := by
  have hreach : ∀ x ∈ rs.reduceOption, w.heap.Reachable held x := fun x hx =>
    h.reachable (hrs _ (List.reduceOption_mem_iff.mp hx) x rfl)
  have hconserves := Run.conserves_retainAll [] [] h.balanced hreach
  rw [List.append_nil] at hconserves
  obtain ⟨h', hcontinues⟩ := h.after hcs hconserves (Run.advances_modifyHeap _) rfl
  exact ⟨_, congrFun (Run.forM_retainRef rs) w, h', hcontinues⟩

omit h in
/-- References that are held besides are put into a new array. -/
theorem ofList_array {rs : List Ref} (h : Ready P cs others (rs.reduceOption ++ held) w)
    (hamong : ∀ x ∈ others, x ∈ held) (hrs : ∀ r ∈ rs, w.Reaches others r) :
    ∃ a w', Arr.ofList rs w = (.ok (some a), w') ∧ Ready P cs (a :: others) (a :: held) w' ∧
      w.Continues cs others w' ∧ w.heap.cells.size ≤ a.index ∧
      w'.ObjectAt a .array (.array rs) := by
  have harray : ObjectClass.array ∈ cs := hcs.builtins .array (by decide)
  obtain ⟨a, w', hcreate⟩ := (h.decides_create hcs harray (.array rs)).ok_iff.mpr trivial
  have hrenews : w.Renews P held a .array (.array rs) w' := Run.renews_create h.balanced rfl hcreate
  have hadvanced := (Run.advances_create harray (.array rs) w).types
  rw [hcreate] at hadvanced
  have hparts : Ready P cs (rs.reduceOption ++ others) (rs.reduceOption ++ held) w :=
    h.adopt (fun x => List.mem_append_left held) fun x hx => h.made x (hx.through fun y hy =>
      hrs _ (List.reduceOption_mem_iff.mp hy) y rfl)
  obtain ⟨-, hcontinues⟩ := h.step hcs (hrenews.since.mono hamong) hadvanced hrenews.balanced
    fun x hx => List.mem_cons_of_mem a (hamong x hx)
  obtain ⟨-, -, -, -, -, hnew, -⟩ := Run.create_inv hcreate
  exact ⟨a, w', run_map_of_ok hcreate, hparts.renews hcs harray hrenews hadvanced
    (fills_array w rs) hamong, hcontinues, (congrArg ObjId.index hnew).ge, hrenews.made⟩

/-! ## Arguments -/

/-- A map is passed on with a reference more. -/
theorem decode_map (tag : ObjectTag) (hm : w.heap.Reachable others m)
    (hcontent : w.payload? m = some (.map es)) :
    ∃ w', Run.decode anyMap (.object tag m) w = (.ok (some m), w') ∧
      Ready P cs others (m :: held) w' ∧ w.Continues cs others w' := by
  have hwithin : (RefType.map .object .object).Within (· ∈ cs) := ⟨hcs.root, hcs.root⟩
  have hparts : w.Parts (.map .object .object) m _ := .map hcontent
  have hrecalled : w.recalled.Parts (.map .object .object) m _ := hparts.congr rfl
  have hpasses : w.recalled.mismatch? (.map .object .object) (some m) = none :=
    hrecalled.passes_iff.mpr (forall_mem_entryParts.mpr fun _ _ =>
      ⟨mismatch?_object _ _, mismatch?_object _ _⟩)
  obtain ⟨w', h', hcontinues, hrun⟩ := h.decodeContainer_object hcs hwithin
    (t := .map .object .object) trivial hm hparts tag (Run.rebuildAs (.map .object .object))
  rw [hpasses, ← Run.decodeRef_container (t := .map .object .object) trivial] at hrun
  exact ⟨w', hrun, h', hcontinues⟩

/-- The map is the only argument. -/
theorem converts_map (tag : ObjectTag) (hm : w.heap.Reachable others m)
    (hcontent : w.payload? m = some (.map es)) :
    ∃ w', Args.Converts w [anyMap] [.object tag m] (some m, ()) w' ∧
      Ready P cs others (m :: held) w' ∧ w.Continues cs others w' := by
  obtain ⟨w', hrun, h', hcontinues⟩ := h.decode_map hcs tag hm hcontent
  exact ⟨w', .cons hrun (.nil w'), h', hcontinues⟩

/-- A key comes after it. -/
theorem converts_mapAndKey (tag : ObjectTag) (hm : w.heap.Reachable others m)
    (hcontent : w.payload? m = some (.map es)) (hk : Borrowed w others k)
    (hconverts : w.recalled.Convertible .object k) :
    ∃ (key : Ref) (w' : World κ),
      Args.Converts w [anyMap, anyObject] [.object tag m, k] (some m, key, ()) w' ∧
      Ready P cs others (m :: key.toList ++ held) w' ∧ w.Continues cs others w' ∧
      Stored w w' k key := by
  obtain ⟨w₁, hrun, h₁, hcontinues⟩ := h.decode_map hcs tag hm hcontent
  have hwithin : RefType.object.Within (· ∈ cs) := hcs.root
  have hk₁ := hk.since hcontinues.proceeds.since
  obtain ⟨key, w', hkey⟩ := (decisive hcs hwithin h₁ hk₁).ok_iff.mpr
    ((hcontinues.resembles.convertible_iff hcs hwithin hk).mpr hconverts)
  obtain ⟨h', hcontinues', -, hstored⟩ := h₁.stores hcs hk₁ hkey
  have hkeyRun : Run.decode anyObject k w₁ = (.ok key, w') := hkey
  refine ⟨key, w', .cons hrun (.cons hkeyRun (.nil w')), h'.perm ?_,
    hcontinues.trans hcontinues', hstored.earlier hcontinues.proceeds⟩
  exact List.perm_middle.symm

end Ready

end World

/-! ## Calls -/

namespace Run

/-- The object that an answer carries. -/
def carriedBy (answer : Except Fault Value) : List ObjId :=
  (answer.toOption.bind Value.object?).toList

/-- A call ends with the answer.  The caller holds the object that the answer carries, and what others
hold goes on as it is. -/
structure Answers (P : κ → Prop) (cs : List ObjectClass) (others held : List ObjId) (w : World κ)
    (call : Run κ Value) (answer : Except Fault Value) (w' : World κ) : Prop where
  run : call w = (answer, w')
  ready : Ready P cs (carriedBy answer ++ others) (carriedBy answer ++ held) w'
  proceeds : w.Proceeds others w'

variable (name : String) (s : Signature) (body : Args s.params → Run κ s.result.Carrier)
  {xs : Args s.params} {y : s.result.Carrier} {fault : Fault}

/-- The arguments of a call are given up when its body has ended. -/
theorem callTyped_ready (hcs : Vocabulary cs) (hargs : Args.Converts w s.params vs xs w₁)
    (hbody : body xs w₁ = (.ok y, w₂))
    (h : Ready P cs made (Args.references s.params xs ++ held) w₂) (hamong : ∀ x ∈ made, x ∈ held) :
    ∃ w', callTyped name s body vs w = encode s.result y w' ∧ Ready P cs made held w' ∧
      w₂.Continues cs made w' := by
  obtain ⟨h', hcontinues⟩ := h.releases hcs hamong
  exact ⟨_, (Evaluates.result hargs hbody rfl).callTyped_eq, h', hcontinues⟩

/-- So they are when it has failed. -/
theorem answers_fault (hcs : Vocabulary cs) (hargs : Args.Converts w s.params vs xs w₁)
    (hbody : body xs w₁ = (.error fault, w₂))
    (h : Ready P cs others (Args.references s.params xs ++ held) w₂)
    (hcontinues : w.Continues cs others w₂) (hamong : ∀ x ∈ others, x ∈ held) :
    ∃ w', Answers P cs others held w (callTyped name s body vs) (.error fault) w' := by
  obtain ⟨h', hcontinues'⟩ := h.releases hcs hamong
  exact ⟨_, (Evaluates.bodyFault hargs hbody).callTyped_eq, h',
    hcontinues.proceeds.trans hcontinues'.proceeds⟩

end Run

open Run (Answers)

namespace Builtin

section

variable (h : Ready P cs others held w) (hcs : Vocabulary cs)
include h hcs

omit h hcs in
theorem references_mapAndKey (m : ObjId) (key : Ref) :
    Args.references [anyMap, anyObject] (some m, key, ()) = m :: key.toList :=
  congrArg (m :: ·) (List.append_nil key.toList)

/-- A function with a number for a result answers with the number. -/
theorem answers_number {b : Builtin} {params : List ValueType} {body : Args params → Run κ I64}
    {xs : Args params} {n : I64} (hargs : Args.Converts w params vs xs w₁)
    (hbody : body xs w₁ = (.ok n, w₂))
    (h₂ : Ready P cs others (Args.references params xs ++ held) w₂)
    (hcontinues : w.Continues cs others w₂) :
    ∃ w', Answers P cs others held w (b.typed params (.int .i64) body vs) (.ok (.int n)) w' := by
  obtain ⟨w', hcall, h', hcontinues'⟩ := Run.callTyped_ready b.name
    ⟨params, .int .i64, false⟩ body hcs hargs hbody h₂ h.among
  refine ⟨w', hcall.trans ?_, h', hcontinues.proceeds.trans hcontinues'.proceeds⟩
  rw [Run.encode, MachineInt.ofInt?_val]
  rfl

/-- The size of a map is the number of its entries. -/
theorem mapSize_answers (tag : ObjectTag) (hm : w.heap.Reachable others m)
    (hcontent : w.payload? m = some (.map es)) :
    ∃ w', Answers P cs others held w (Builtin.mapSize.run [.object tag m])
      (.ok (.int (count es.length))) w' := by
  obtain ⟨w₁, hargs, h₁, hcontinues⟩ := h.converts_map hcs tag hm hcontent
  have hentries : w₁.entries (some m) = es :=
    Dict.entries_of_payload ((hcontinues.payload? hm).trans hcontent)
  have hbody : (do return count ((← get).entries (some m)).length : Run κ I64) w₁ =
      (.ok (count es.length), w₁) := by
    rw [run_get_bind, hentries]
    rfl
  exact answers_number h hcs hargs hbody h₁ hcontinues

variable (tag : ObjectTag) (hm : w.heap.Reachable others m)
  (hcontent : w.payload? m = some (.map es))
include hm hcontent

variable (hk : Borrowed w others k) (hconverts : w.recalled.Convertible .object k)
include hk hconverts

/-- The arguments are converted, the key is asked how it is compared, and then the entry for it is
found. -/
theorem find?_asked {ask : Ref → Run κ Unit} (hquiet : ∀ key, Quiet (ask key))
    (hadvances : ∀ key, Advances (· ∈ cs) (ask key))
    (hasks : ∀ {held₁ w₁} key, Ready P cs others held₁ w₁ → ∃ w₂, ask key w₁ = (.ok (), w₂)) :
    ∃ (key : Ref) (w₁ w₂ : World κ),
      Args.Converts w [anyMap, anyObject] [.object tag m, k] (some m, key, ()) w₁ ∧
      ask key w₁ = (.ok (), w₂) ∧
      Ready P cs others (Args.references [anyMap, anyObject] (some m, key, ()) ++ held) w₂ ∧
      w.Continues cs others w₂ ∧
      Dict.find? w₂ (some m) key = (w.entryOf? es k).map Prod.snd := by
  obtain ⟨key, w₁, hargs, h₁, hcontinues₁, hstored⟩ :=
    h.converts_mapAndKey hcs tag hm hcontent hk hconverts
  obtain ⟨w₂, hask⟩ := hasks key h₁
  obtain ⟨h₂, hcontinues₂, hproceeds⟩ := h₁.quietly hcs (hquiet key) (hadvances key) hask
  have hcontinues := hcontinues₁.trans hcontinues₂
  refine ⟨key, w₁, w₂, hargs, hask, references_mapAndKey m key ▸ h₂, hcontinues, ?_⟩
  exact (hstored.later hproceeds fun x hx => .of_mem (by simp [hx])).find? h
    hcontinues.proceeds.since hk hm hcontent

/-- A key is counted if there is an entry for it. -/
theorem mapCount_answers :
    ∃ w', Answers P cs others held w (Builtin.mapCount.run [.object tag m, k])
      (.ok (.int (count (if (w.entryOf? es k).isSome then 1 else 0)))) w' := by
  obtain ⟨key, w₁, w₂, hargs, hask, h₂, hcontinues, hfind⟩ := find?_asked h hcs tag hm hcontent hk
    hconverts (Dict.quiet_askLookup (some m)) (Dict.advances_askLookup hcs.covers (some m))
    fun key h₁ => h₁.askLookup hcs (some m) key
  have hhas : Dict.has (some m) key w₁ = (.ok (w.entryOf? es k).isSome, w₂) := by
    rw [Dict.has, run_bind_of_ok hask, run_get_bind, Dict.contains, hfind, Option.isSome_map]
    rfl
  exact answers_number h hcs hargs (run_bind_of_ok hhas) h₂ hcontinues

omit h hk hconverts in
/-- A value in the map passes, and is held once more. -/
theorem retains_value (he : e ∈ es) {held₁ : List ObjId} (h₁ : Ready P cs others held₁ w₁)
    (hcontinues : w.Continues cs others w₁) :
    ∃ w₂, (do let v ← Run.downcast .object e.2; Run.retainRef v; return v) w₁ = (.ok e.2, w₂) ∧
      Ready P cs others (e.2.toList ++ held₁) w₂ ∧ w.Continues cs others w₂ := by
  have hreach : w.Reaches others e.2 := (World.Reaches.entry hm hcontent he).2
  have hwithin : RefType.object.Within (· ∈ cs) := hcs.root
  obtain ⟨w₂, hdowncast⟩ := (h₁.downcast_iff hcs hwithin (hcontinues.reaches hreach)).mpr
    (World.mismatch?_object _ _)
  obtain ⟨h₂, hcontinues₂, -⟩ := h₁.quietly hcs (Run.quiet_downcast _ _)
    (Run.advances_downcast hcs.covers hwithin _) hdowncast
  obtain ⟨w₃, hretain, h₃, hcontinues₃⟩ :=
    h₂.retainRef hcs ((hcontinues.trans hcontinues₂).reaches hreach)
  exact ⟨w₃, (run_bind_of_ok hdowncast).trans (run_bind_of_ok hretain), h₃,
    (hcontinues.trans hcontinues₂).trans hcontinues₃⟩

/-- The value under a key comes out as it travels. -/
theorem mapItem_answers (hentry : w.entryOf? es k = some e) :
    ∃ w', Answers P cs others held w (Builtin.mapItem.run [.object tag m, k])
      (.ok (w.recalled.classifyRef e.2 false)) w' := by
  have he := (World.of_entryOf?_eq_some hentry).1
  have hreach : w.Reaches others e.2 := (World.Reaches.entry hm hcontent he).2
  obtain ⟨key, w₁, w₂, hargs, hask, h₂, hcontinues₂, hfind⟩ := find?_asked h hcs tag hm hcontent hk
    hconverts Run.quiet_askKey (Run.advances_askKey hcs.covers)
    fun key h₁ => (h₁.askKey hcs key).imp fun _ => And.left
  obtain ⟨w₃, hvalue, h₃, hcontinues₃⟩ := retains_value hcs hm hcontent he h₂ hcontinues₂
  have hget : Dict.get .object (some m) key w₁ = (.ok e.2, w₃) := by
    rw [Dict.get, run_bind_of_ok hask, run_get_bind, hfind, hentry, Option.map_some]
    exact hvalue
  -- the arguments are given up, and the value travels
  obtain ⟨w₄, hcall, h₄, hcontinues₄⟩ := Run.callTyped_ready Builtin.mapItem.name
    ⟨[anyMap, anyObject], anyObject, true⟩ (fun xs => Dict.get .object xs.1 xs.2.1) hcs hargs
    hget (h₃.perm (List.perm_append_comm_assoc _ _ _))
    fun x hx => List.mem_append_right _ (h.among x hx)
  have hcontinues := hcontinues₃.trans hcontinues₄
  obtain ⟨w₅, hencode, h₅, hcontinues₅⟩ := h₄.encodeRef hcs (hcontinues.reaches hreach) h.among
  have hall := hcontinues.trans hcontinues₅
  rw [hcontinues.resembles.classifyRef hcs hreach] at hencode h₅
  refine ⟨w₅, hcall.trans hencode, ?_, hall.proceeds⟩
  refine h₅.adopt (fun x => List.mem_append_left _) fun x hx => h₅.made x (hx.through ?_)
  exact fun y hy => hall.reaches hreach y (Run.object?_classifyRef (Option.mem_toList.mp hy))

/-- A key without an entry is missing. -/
theorem mapItem_missing (hentry : w.entryOf? es k = none) :
    ∃ text w', Answers P cs others held w (Builtin.mapItem.run [.object tag m, k])
      (.error (.error (.keyMissing text))) w' := by
  obtain ⟨key, w₁, w₂, hargs, hask, h₂, hcontinues, hfind⟩ := find?_asked h hcs tag hm hcontent hk
    hconverts Run.quiet_askKey (Run.advances_askKey hcs.covers)
    fun key h₁ => (h₁.askKey hcs key).imp fun _ => And.left
  have hget : Dict.get .object (some m) key w₁ =
      (.error (.error (.keyMissing (Dict.showKey w₂ key))), w₂) := by
    rw [Dict.get, run_bind_of_ok hask, run_get_bind, hfind, hentry]
    rfl
  obtain ⟨w', hanswers⟩ := Run.answers_fault Builtin.mapItem.name
    ⟨[anyMap, anyObject], anyObject, true⟩ (fun xs => Dict.get .object xs.1 xs.2.1) hcs hargs
    hget h₂ hcontinues h.among
  exact ⟨_, w', hanswers⟩

omit hk hconverts

/-- The keys and values are listed in a new array. -/
theorem mapItems_answers :
    ∃ a w', Answers P cs others held w (Builtin.mapItems.run [.object tag m])
        (.ok (.object .object a)) w' ∧ w.heap.cells.size ≤ a.index ∧
      w'.payload? a = some (.array (es.flatMap fun e => [e.1, e.2])) := by
  obtain ⟨w₁, hargs, h₁, hcontinues₁⟩ := h.converts_map hcs tag hm hcontent
  have hreach : ∀ r ∈ es.flatMap fun e => [e.1, e.2], w.Reaches others r := by
    intro r hr
    obtain ⟨e, he, hr⟩ := List.mem_flatMap.mp hr
    obtain ⟨hkey, hvalue⟩ := World.Reaches.entry hm hcontent he
    rcases List.mem_pair.mp hr with rfl | rfl
    · exact hkey
    · exact hvalue
  -- they are held once more by the new array
  obtain ⟨w₂, hretain, h₂, hcontinues₂⟩ :=
    h₁.retainRefs hcs fun r hr => hcontinues₁.reaches (hreach r hr)
  have hcontinues := hcontinues₁.trans hcontinues₂
  obtain ⟨a, w₃, hlist, h₃, hcontinues₃, hnew, hat⟩ := World.Ready.ofList_array hcs h₂ h₁.among
    fun r hr => hcontinues.reaches (hreach r hr)
  have hentries : w₁.entries (some m) = es :=
    Dict.entries_of_payload ((hcontinues₁.payload? hm).trans hcontent)
  have hitems : items w₁ (some m) w₁ = (.ok (some a), w₃) := by
    rw [items, hentries]
    exact (run_bind_of_ok hretain).trans hlist
  -- the argument is given up, and the array travels as it is
  have hheld : Ready P cs (a :: others)
      (Args.references [anyMap] (some m, ()) ++ (a :: held)) w₃ := h₃.perm (.swap _ _ _)
  obtain ⟨w₄, hcall, h₄, hcontinues₄⟩ := Run.callTyped_ready Builtin.mapItems.name
    ⟨[anyMap], anyArray, false⟩ (fun xs => do items (← get) xs.1) hcs hargs hitems hheld
    (List.forall_mem_cons.mpr
      ⟨List.mem_cons_self, fun x hx => List.mem_cons_of_mem a (h.among x hx)⟩)
  have hat₄ := hat.since hcontinues₄.proceeds.since (.of_mem List.mem_cons_self)
  have hleaf : ObjectClass.array.IsLeaf := RefType.IsContainer.isLeaf (t := .array .object) trivial
  have htravels : w₄.recalled.classifyRef (some a) false = .object .object a :=
    h₄.classify_other hcs hat₄.cls hleaf (by decide)
  have ha : w₄.Reaches (a :: others) (some a) := by
    rintro x ⟨⟩
    exact .of_mem List.mem_cons_self
  obtain ⟨w₅, hencode, h₅, hcontinues₅⟩ := h₄.encodeRef_of_object hcs ha (congrArg _ htravels)
  rw [htravels] at hencode
  have hothers : w₃.Proceeds others w₅ := (hcontinues₄.trans hcontinues₅).proceeds.mono
    fun x => List.mem_cons_of_mem a
  exact ⟨a, w₅, ⟨hcall.trans hencode, h₅,
    (hcontinues.trans hcontinues₃).proceeds.trans hothers⟩,
    hcontinues.proceeds.size_le.trans hnew,
    hcontinues₅.proceeds.since.content (.of_mem List.mem_cons_self) hat₄.content⟩

end

end Builtin

namespace World

/-! ## Keys that are found -/

/-- The value carries the box that has been made of a number. -/
def CarriesBox (number : Value) (box : Ref) (k : Value) : Prop :=
  (∃ content : BoxContent, number = content.value) ∧ ∃ b, box = some b ∧ k.object? = some b

/-- The value is the key of an entry that has been stored for a pair of arguments. -/
def Finds (w w₂ : World κ) (k : Value) (q : (Value × Value) × (Ref × Ref)) : Prop :=
  SameArgument w q.1.1 w₂ k ∨ CarriesBox q.1.1 q.2.1 k

/-- The value is one of the keys of a map with the entries that is made of the arguments. -/
def IsKey (w : World κ) (given : List (Value × Value)) (es : List (Ref × Ref)) (w₂ : World κ)
    (k : Value) : Prop :=
  (∃ p ∈ given, SameArgument w p.1 w₂ k) ∨
    ∃ q ∈ (w.argumentEntries given).zip es, CarriesBox q.1.1 q.2.1 k

theorem SameArgument.trans {v u : Value} (h : SameArgument w v w u) (h' : SameArgument w u w₂ k) :
    SameArgument w v w₂ k := ⟨h.1, h'.2.trans h.2⟩

/-- A number is a new key every time. -/
theorem not_sameArgument_number (content : BoxContent) (v : Value) :
    ¬ SameArgument w content.value w₂ v ∧ ¬ SameArgument w v w₂ content.value := by
  refine ⟨fun hsame => hsame.1 (argumentIdentity?_number content), fun hsame => hsame.1 ?_⟩
  rw [← hsame.2, argumentIdentity?_number]

/-- It is never found again. -/
theorem not_isKey_number (content : BoxContent) : ¬ IsKey w given es w₂ content.value := by
  rintro (⟨p, -, hsame⟩ | ⟨q, -, -, b, -, hb⟩)
  · exact (not_sameArgument_number content p.1).2 hsame
  · cases content <;> cases hb

/-- An entry that has been stored for a pair of arguments is found under the values that are its
key. -/
theorem StoredPair.finds_iff (hpair : StoredPair w w' p e) (h : Ready P cs others held w)
    (hsince : Since w others w') (hp : Borrowed w others p.1)
    (hsame : w₂.keyIdentity e.1 = w'.keyIdentity e.1) :
    w₂.argumentIdentity? k = some (w₂.keyIdentity e.1) ↔ w.Finds w₂ k (p, e) := by
  rcases hpair.1.keyIdentity h hsince hp with hid | ⟨⟨content, hnumber⟩, b, hbox, -, hplain⟩
  · have hnever : ¬ CarriesBox p.1 e.1 k := by
      rintro ⟨⟨content, hnumber⟩, -⟩
      rw [hnumber, argumentIdentity?_number] at hid
      cases hid
    simp [Finds, SameArgument, hnever, hid, hsame]
  · have hnever : ¬ SameArgument w content.value w₂ k := (not_sameArgument_number content k).1
    have hobject : w₂.keyIdentity (some b) = .object b :=
      (hbox ▸ hsame).trans (keyIdentity_eq_object.mpr ⟨rfl, hplain⟩)
    have hnone : w₂.text? b = none := (keyIdentity_eq_object.mp hobject).2
    simp [Finds, CarriesBox, hnever, hnumber, hbox, hobject, argumentIdentity?_eq_object, hnone]

section

variable (hlength : (w.argumentEntries given).length = es.length)
include hlength

/-- A value is a key if it finds an entry. -/
theorem isKey_iff :
    w.IsKey given es w₂ k ↔ ∃ q ∈ (w.argumentEntries given).zip es, w.Finds w₂ k q := by
  constructor
  · rintro (⟨p, hp, hsame⟩ | ⟨q, hq, hbox⟩)
    · obtain ⟨d, hd, hkey⟩ : ∃ d ∈ w.argumentEntries given,
          d.1 = p.1 ∨ decide (SameArgument w d.1 w p.1) = true := exists_mem_ordered hp
      obtain ⟨q, hq, rfl⟩ := exists_mem_zip_left hlength hd
      refine ⟨q, hq, .inl ?_⟩
      rcases hkey with hkey | hkey
      · rwa [hkey]
      · exact (of_decide_eq_true hkey).trans hsame
    · exact ⟨q, hq, .inr hbox⟩
  · rintro ⟨q, hq, hsame | hbox⟩
    · obtain ⟨⟨v, hv⟩, -⟩ := mem_of_mem_ordered (List.of_mem_zip hq).1
      exact .inl ⟨_, hv, hsame⟩
    · exact .inr ⟨q, hq, hbox⟩

variable (hfinds : ∀ q ∈ (w.argumentEntries given).zip es,
  w₂.argumentIdentity? k = some (w₂.keyIdentity q.2.1) ↔ w.Finds w₂ k q)
include hfinds

/-- A lookup gives the entry that a key finds. -/
theorem exists_entryOf? (hkey : w.IsKey given es w₂ k) :
    ∃ q ∈ (w.argumentEntries given).zip es, w.Finds w₂ k q ∧ w₂.entryOf? es k = some q.2 := by
  obtain ⟨q, hq, hfind⟩ := (isKey_iff hlength).mp hkey
  cases hentry : w₂.entryOf? es k with
  | none =>
      have hnone := List.find?_eq_none.mp hentry q.2 (List.of_mem_zip hq).2
      exact absurd (decide_eq_true ((hfinds q hq).mpr hfind)) hnone
  | some e =>
      obtain ⟨hmem, hfound⟩ := of_entryOf?_eq_some hentry
      obtain ⟨q', hq', rfl⟩ := exists_mem_zip_right hlength hmem
      exact ⟨q', hq', (hfinds q' hq').mp hfound, rfl⟩

/-- Without one there is no entry. -/
theorem entryOf?_eq_none (hmissing : ¬ w.IsKey given es w₂ k) : w₂.entryOf? es k = none := by
  refine List.find?_eq_none.mpr fun e he hfound => hmissing ((isKey_iff hlength).mpr ?_)
  obtain ⟨q, hq, rfl⟩ := exists_mem_zip_right hlength he
  exact ⟨q, hq, (hfinds q hq).mp (of_decide_eq_true hfound)⟩

end

end World

open World (IsKey)

namespace Builtin

/-! ## What the functions answer -/

/-- The functions that ask the map tell as many keys as there are different ones among the arguments,
list the entries, find the value under each key, and nothing under another value.  A number is a new
key every time, and is never found. -/
structure AnswersFor (P : κ → Prop) (cs : List ObjectClass) (others held : List ObjId) (w : World κ)
    (given : List (Value × Value)) (es : List (Ref × Ref)) (w₂ : World κ) (map : Value) : Prop where
  size : ∃ w', Answers P cs others held w₂ (Builtin.mapSize.run [map])
    (.ok (.int (count (w.argumentEntries given).length))) w'
  items : ∃ a w', Answers P cs others held w₂ (Builtin.mapItems.run [map])
      (.ok (.object .object a)) w' ∧
    w₂.heap.cells.size ≤ a.index ∧
    w'.payload? a = some (.array (es.flatMap fun e => [e.1, e.2]))
  found : ∀ k, Borrowed w₂ others k → (∃ r w', Run.decodeRef .object k w₂ = (.ok r, w')) →
    IsKey w given es w₂ k →
      (∃ w', Answers P cs others held w₂ (Builtin.mapCount.run [map, k]) (.ok (.int 1)) w') ∧
      ∃ q ∈ (w.argumentEntries given).zip es, w.Finds w₂ k q ∧ ∃ x w', ComesOut w₂ q.1.2 x ∧
        Answers P cs others held w₂ (Builtin.mapItem.run [map, k]) (.ok x) w'
  missing : ∀ k, Borrowed w₂ others k → (∃ r w', Run.decodeRef .object k w₂ = (.ok r, w')) →
    ¬ IsKey w given es w₂ k →
      (∃ w', Answers P cs others held w₂ (Builtin.mapCount.run [map, k]) (.ok (.int 0)) w') ∧
      ∃ text w', Answers P cs others held w₂ (Builtin.mapItem.run [map, k])
        (.error (.error (.keyMissing text))) w'
  number : ∀ content : BoxContent,
    (∀ v, ¬ SameArgument w content.value w v) ∧ ¬ IsKey w given es w₂ content.value

/-- A map with entries that have been stored for arguments answers so. -/
theorem answersFor (h₂ : Ready P cs others held w₂) (hcs : Vocabulary cs)
    (hm : w₂.heap.Reachable others m) (hcontent : w₂.payload? m = some (.map es))
    (hall : List.Forall₂ (StoredPair w w₂) (w.argumentEntries given) es)
    (hfinds : ∀ k, ∀ q ∈ (w.argumentEntries given).zip es,
      w₂.argumentIdentity? k = some (w₂.keyIdentity q.2.1) ↔ w.Finds w₂ k q) (tag : ObjectTag) :
    AnswersFor P cs others held w given es w₂ (.object tag m) := by
  have hlength := hall.length_eq
  have hconverts : ∀ k, Borrowed w₂ others k →
      (∃ r w', Run.decodeRef .object k w₂ = (.ok r, w')) → w₂.recalled.Convertible .object k :=
    fun k hk hdecodes => (World.decisive hcs (t := .object) hcs.root h₂ hk).ok_iff.mp hdecodes
  refine ⟨?_, mapItems_answers h₂ hcs tag hm hcontent, fun k hk hdecodes hkey => ?_,
    fun k hk hdecodes hmissing => ?_, fun content =>
      ⟨fun v => (World.not_sameArgument_number content v).1, World.not_isKey_number content⟩⟩
  · rw [hlength]
    exact mapSize_answers h₂ hcs tag hm hcontent
  · obtain ⟨q, hq, hfind, hentry⟩ := World.exists_entryOf? hlength (hfinds k) hkey
    have hcount := mapCount_answers h₂ hcs tag hm hcontent hk (hconverts k hk hdecodes)
    rw [hentry] at hcount
    obtain ⟨w', hitem⟩ :=
      mapItem_answers h₂ hcs tag hm hcontent hk (hconverts k hk hdecodes) hentry
    have hstored : w.Stored w₂ q.1.2 q.2.2 := ((List.forall₂_iff_zip.mp hall).2 hq).2
    exact ⟨hcount, q, hq, hfind, _, w', hstored.comesOut h₂ hcs, hitem⟩
  · have hentry := World.entryOf?_eq_none hlength (hfinds k) hmissing
    have hcount := mapCount_answers h₂ hcs tag hm hcontent hk (hconverts k hk hdecodes)
    rw [hentry] at hcount
    exact ⟨hcount, mapItem_missing h₂ hcs tag hm hcontent hk (hconverts k hk hdecodes) hentry⟩

/-- Arguments that take turns as keys and values make an ordered map of them, in which strings with
the same content are the same key, and so is nothing, and each object.  An odd number of arguments
makes none. -/
theorem map_orders_arguments (h : Ready P cs others held w) (hcs : Vocabulary cs)
    (hvs : ∀ v ∈ vs, Borrowed w others v) :
    (∀ v u, SameArgument w v w u ↔
      (∃ s, w.stringContent? v = some s ∧ w.stringContent? u = some s) ∨ (v = .null ∧ u = .null) ∨
        ∃ a, v.object? = some a ∧ u.object? = some a) ∧
    (vs.length % 2 ≠ 0 → ∃ w', Builtin.map.run vs w = (.error (.error (.raw
      s!"runtime.Map expects key value pairs, but {vs.length} arguments were provided")), w')) ∧
    (vs.length % 2 = 0 → (∀ v ∈ vs, ∃ r w', Run.decodeRef .object v w = (.ok r, w')) →
      ∃ m es w', Answers P cs others held w (Builtin.map.run vs) (.ok (.object .object m)) w' ∧
        w.heap.cells.size ≤ m.index ∧ w'.payload? m = some (.map es) ∧
        ∀ others₂ held₂ w₂ tag, Ready P cs others₂ held₂ w₂ → w₂.heap.Reachable others₂ m →
          w'.Proceeds [m] w₂ →
          List.Forall₂ (StoredPair w w₂) (w.argumentEntries (Loading.pairs vs)) es ∧
          AnswersFor P cs others₂ held₂ w (Loading.pairs vs) es w₂ (.object tag m)) := by
  refine ⟨fun v u => World.sameArgument_iff, fun hodd => ?_, fun heven hdecodes => ?_⟩
  · obtain ⟨first, w₁, htouch, -⟩ := h.touches hcs (hcs.builtins .map (by decide))
    refine ⟨w₁, (run_bind_of_ok htouch).trans ?_⟩
    rw [argPairs, if_pos hodd]
    rfl
  · have hconverts : ∀ v ∈ vs, w.recalled.Convertible .object v := fun v hv =>
      (World.decisive hcs (t := .object) hcs.root h (hvs v hv)).ok_iff.mp (hdecodes v hv)
    obtain ⟨m, es, w', hrun, h', hproceeds, hnew, hcontent, hall⟩ :=
      makeMap_ready h hcs hvs hconverts heven
    refine ⟨m, es, w', ⟨hrun, h', hproceeds⟩, hnew, hcontent,
      fun others₂ held₂ w₂ tag h₂ hm hlater => ?_⟩
    have hmade : w'.heap.Reachable [m] m := .of_mem List.mem_cons_self
    have hreach : ∀ e ∈ es, w'.Reaches [m] e.1 ∧ w'.Reaches [m] e.2 := fun e he =>
      World.Reaches.entry hmade hcontent he
    -- the entries are held by the map, and stay what they are
    have hlaterAll : List.Forall₂ (StoredPair w w₂) (w.argumentEntries (Loading.pairs vs)) es :=
      forall₂_imp_mem hall fun p e _ he hpair =>
        ⟨hpair.1.later hlater (hreach e he).1, hpair.2.later hlater (hreach e he).2⟩
    refine ⟨hlaterAll, answersFor h₂ hcs hm (hlater.since.content hmade hcontent) hlaterAll
      (fun k q hq => ?_) tag⟩
    obtain ⟨hp, he⟩ := List.of_mem_zip hq
    obtain ⟨⟨v, hv⟩, -⟩ := mem_of_mem_ordered hp
    have hmap : Ready P cs [m] (m :: held) w' :=
      h'.mono (List.forall_mem_singleton.mpr List.mem_cons_self)
    exact ((List.forall₂_iff_zip.mp hall).2 hq).finds_iff h hproceeds.since
      (hvs _ (mem_of_mem_pairs hv).1) (hlater.since.keyIdentity hmap (hreach _ he).1)

open ObjectClass (vocabulary_builtins)
open Views (ready_textAndInt textAndInt)

/-- Keys and values of which a string comes twice, as an object and as a plain text. -/
def textTwice : List Value :=
  [.object .object ⟨0⟩, .null, .text "x", .int 5, .int 7, .object .object ⟨1⟩]

theorem argumentEntries_textTwice : textAndInt.argumentEntries (Loading.pairs textTwice) =
    [(.object .object ⟨0⟩, .int 5), (.int 7, .object .object ⟨1⟩)] := by
  decide +kernel

theorem decodes_textTwice :
    ∀ v ∈ textTwice, ∃ r w', Run.decodeRef .object v textAndInt = (.ok r, w') := by
  have hsome : ∀ v ∈ textTwice, (Run.decodeRef .object v textAndInt).1.toOption.isSome = true := by
    decide +kernel
  intro v hv
  obtain ⟨r, hr⟩ := Option.isSome_iff_exists.mp (hsome v hv)
  exact ⟨r, run_of_toOption hr⟩

/-- The map has an entry for the string, with the value that came last, and one for the number, which
is not found again. -/
theorem map_orders_arguments_textTwice :
    ∃ m w', Builtin.map.run textTwice textAndInt = (.ok (.object .object m), w') ∧
      (∃ w₂, Builtin.mapSize.run [.object .object m] w' = (.ok (.int 2), w₂)) ∧
      (∃ w₂, Builtin.mapItem.run [.object .object m, .text "x"] w' = (.ok (.int 5), w₂)) ∧
      ∃ w₂, Builtin.mapCount.run [.object .object m, .int 7] w' = (.ok (.int 0), w₂) := by
  have hborrowed : ∀ v ∈ textTwice, Borrowed textAndInt [⟨1⟩, ⟨0⟩] v := by
    have hobjects : ∀ v ∈ textTwice, ∀ a ∈ v.object?, a ∈ [(⟨1⟩ : ObjId), ⟨0⟩] := by decide
    exact fun v hv a ha => .of_mem (hobjects v hv a ha)
  obtain ⟨m, es, w', hmap, -, -, hlater⟩ :=
    (map_orders_arguments ready_textAndInt vocabulary_builtins hborrowed).2.2 rfl
      decodes_textTwice
  obtain ⟨-, hanswers⟩ := hlater _ _ w' .object hmap.ready (.of_mem List.mem_cons_self)
    (.refl hmap.ready.regular [m])
  have hdecodes : ∀ {v : Value} {p : ObjectClass × Payload Unit} {rest}, World.boxings v = p :: rest →
      ∃ r w₂, Run.decodeRef .object v w' = (.ok r, w₂) := by
    intro v p rest hboxings
    obtain ⟨b, w₂, hrun, -⟩ := hmap.ready.objectOf_root vocabulary_builtins hboxings
    exact ⟨some b, w₂, hrun⟩
  have htext : IsKey textAndInt (Loading.pairs textTwice) es w' (.text "x") :=
    .inl ⟨(.text "x", .int 5), by decide, nofun, rfl⟩
  obtain ⟨-, q, hq, hfind, x, w₂, hout, hitem⟩ :=
    hanswers.found (.text "x") nofun (hdecodes rfl) htext
  obtain ⟨⟨w₃, hcount⟩, -⟩ :=
    hanswers.missing (.int 7) nofun (hdecodes rfl) (hanswers.number (.int 7)).2
  obtain ⟨w₄, hsize⟩ := hanswers.size
  have hentry := (List.of_mem_zip hq).1
  rw [argumentEntries_textTwice] at hsize hentry
  have hfive : x = .int 5 := by
    rcases List.mem_pair.mp hentry with hpair | hpair
    · rw [hpair] at hout
      exact ComesOut.eq_of_number (.int 5) hout
    · rw [World.Finds, hpair] at hfind
      rcases hfind with hsame | ⟨-, b, -, hb⟩
      · exact absurd hsame (World.not_sameArgument_number (.int 7) _).1
      · cases hb
  exact ⟨m, w', hmap.run, ⟨w₄, hsize.run⟩, ⟨w₂, hfive ▸ hitem.run⟩, ⟨w₃, hcount.run⟩⟩

/-- A world with a map in which a number is the only key. -/
def nameOfFive : World Unit := (Builtin.map.run [.int 5, .text "five"] .initial).2

/-- The items of the map begin with the box that has been made of the number.  The box is found,
though it is not the same key as the number that was given. -/
theorem mapCount_listedBox :
    (Builtin.map.run [.int 5, .text "five"] (.initial : World Unit)).1.toOption =
        some (.object .object ⟨2⟩) ∧
      (∃ items, (Builtin.mapItems.run [.object .object ⟨2⟩] nameOfFive).1.toOption =
          some (.object .object items) ∧
        (Builtin.mapItems.run [.object .object ⟨2⟩] nameOfFive).2.elements (some items) =
          [some ⟨0⟩, some ⟨1⟩]) ∧
      ¬ ((Builtin.mapCount.run [.object .object ⟨2⟩, .object .object ⟨0⟩] nameOfFive).1.toOption =
          some (.int 1) ↔
        ∃ p ∈ [(Value.int 5, Value.text "five")],
          SameArgument (.initial : World Unit) p.1 nameOfFive (.object .object ⟨0⟩)) := by
  have hcount : (Builtin.mapCount.run [.object .object ⟨2⟩, .object .object ⟨0⟩]
      nameOfFive).1.toOption = some (.int 1) := by decide +kernel
  refine ⟨by decide +kernel, ⟨⟨3⟩, by decide +kernel⟩, fun hiff => ?_⟩
  obtain ⟨p, hp, hsame⟩ := hiff.mp hcount
  obtain rfl := List.mem_singleton.mp hp
  exact (World.not_sameArgument_number (.int 5) _).1 hsame

end Builtin

end ObjectRuntime

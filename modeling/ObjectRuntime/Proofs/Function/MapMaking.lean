import ObjectRuntime.Function.Builtin
import ObjectRuntime.Proofs.Container.Stored
set_option autoImplicit false

/-!
# Making maps

The built-in function that makes a map takes keys and values that take turns.  It stores one pair of
arguments after the other and collects the entries, so the map holds one entry for each key, in the
order in which the keys come first, with the value that comes last (`Builtin.makeMap_ready`).
-/

namespace ObjectRuntime

open ObjectClass (Vocabulary)
open Run (Borrowed Conserves Advances Decides entryReferences)
open World (Ready SameArgument Since Stored)

variable {κ : Type} {P : κ → Prop} {w w' w₁ : World κ} {cs : List ObjectClass}
  {others held : List ObjId} {m : ObjId} {p : Value × Value} {e : Ref × Ref}
  {given : List (Value × Value)} {es : List (Ref × Ref)} {vs : List Value}

namespace World

/-- Two references have been stored for two arguments. -/
def StoredPair (w w' : World κ) (p : Value × Value) (e : Ref × Ref) : Prop :=
  Stored w w' p.1 e.1 ∧ Stored w w' p.2 e.2

theorem StoredPair.later {w'' : World κ} (h : StoredPair w w' p e)
    (hproceeds : w'.Proceeds (entryReferences e) w'') : StoredPair w w'' p e :=
  ⟨h.1.later hproceeds fun x hx => .of_mem (by simp [hx]),
    h.2.later hproceeds fun x hx => .of_mem (by simp [hx])⟩

/-- Both arguments are held by others. -/
def BorrowedPair (w : World κ) (others : List ObjId) (p : Value × Value) : Prop :=
  Borrowed w others p.1 ∧ Borrowed w others p.2

theorem BorrowedPair.since (h : BorrowedPair w others p) (hsince : Since w others w') :
    BorrowedPair w' others p := ⟨h.1.since hsince, h.2.since hsince⟩

/-- The entries of the map that is made of arguments. -/
def argumentEntries (w : World κ) (given : List (Value × Value)) : List (Value × Value) :=
  ordered (fun v u => decide (SameArgument w v w u)) given

end World

open World (BorrowedPair StoredPair)

/-- Pairs are made of what is given. -/
theorem mem_of_mem_pairs {α : Type} {as : List α} {p : α × α} (hp : p ∈ Loading.pairs as) :
    p.1 ∈ as ∧ p.2 ∈ as := by
  induction as using Loading.pairs.induct with
  | case1 a b rest ih =>
      rw [Loading.pairs] at hp
      rcases List.mem_cons.mp hp with rfl | hp
      · simp
      · exact (ih hp).imp (fun h => by simp [h]) fun h => by simp [h]
  | case2 as hshort =>
      rw [Loading.pairs.eq_def] at hp
      split at hp
      · exact (hshort _ _ _ rfl).elim
      · cases hp

namespace Builtin

/-- Stores a pair of arguments as an entry, whose key is asked how it is compared. -/
def storePair (p : Value × Value) : Run κ (Ref × Ref) := do
  let key ← Run.decodeRef .object p.1
  let value ← Run.releasingOnFault key.toList (Run.decodeRef .object p.2)
  Run.releasingOnFault (key.toList ++ value.toList) (Run.askKey key)
  return (key, value)

theorem makeMap_eq (vs : List Value) : (makeMap vs : Run κ Value) = (do
    let _ ← Run.touch .map
    let given ← argPairs Builtin.map.name vs
    let es ← Run.mapOwned entryReferences storePair given
    Run.encodeRef (← Dict.ofList es) false) := rfl

theorem advances_storePair {S : ObjectClass → Prop} (hS : ObjectClass.Covers S)
    (p : Value × Value) : Advances S (storePair p : Run κ (Ref × Ref)) := by
  have hdecode : ∀ v, Advances S (Run.decodeRef .object v : Run κ Ref) :=
    fun v => Run.advances_decodeRef hS (t := .object) hS.root v
  refine (hdecode p.1).bind fun key => ((hdecode p.2).releasingOnFault _).bind fun value => ?_
  exact ((Run.advances_askKey hS key).releasingOnFault _).bind fun _ => Run.advances_pure _

theorem conserves_storePair (hb : w.Balanced P held) (hp : BorrowedPair w held p) :
    Conserves P w held entryReferences [] (storePair p) := by
  refine (Run.converts_decodeRef .object hb hp.1).bind fun key w₁ _ hsince hb₁ => ?_
  have hvalue : Conserves P w₁ (key.toList ++ held) Option.toList []
      (Run.decodeRef .object p.2) :=
    Run.converts_decodeRef .object hb₁ (hp.2.since hsince).append
  refine hvalue.releasingOnFault.bind fun value w₂ _ _ hb₂ => ?_
  have hboth : w₂.Balanced P ((key.toList ++ value.toList) ++ held) :=
    hb₂.perm (List.perm_append_comm.append_right held)
  exact ((Run.quiet_askKey key).holding _ hboth).bind fun _ w₃ _ _ hb₃ => Run.conserves_pure hb₃

section

variable (h : Ready P cs others held w) (hcs : Vocabulary cs)
include h hcs

/-- The pair is stored if both arguments can be converted. -/
theorem decides_storePair (hp : BorrowedPair w others p) :
    Decides (w.recalled.Convertible .object p.1 ∧ w.recalled.Convertible .object p.2)
      (storePair p) w := by
  have hwithin : RefType.object.Within (· ∈ cs) := hcs.root
  have hdecisive : World.Decisive P cs others .object := World.decisive hcs hwithin
  refine (hdecisive h hp.1).bind fun key w₁ hkey => ?_
  obtain ⟨h₁, hcontinues, -⟩ := h.stores hcs hp.1 hkey
  have hp₁ := hp.2.since hcontinues.proceeds.since
  have hvalue := (hdecisive h₁ hp₁).congr
    (hcontinues.resembles.convertible_iff hcs hwithin hp.2).symm
  refine ((hvalue.releasingOnFault key.toList).bind fun value w₂ hrun => ?_).congr
    (and_iff_left trivial).symm
  obtain ⟨h₂, -⟩ := h₁.stores hcs hp₁ (Run.releasingOnFault_eq_ok.mp hrun)
  obtain ⟨w₃, hask, -⟩ := h₂.askKey hcs key
  exact .after (Run.releasingOnFault_of_ok hask) (Run.decides_pure trivial)

/-- What has been stored of the pair.  A key that was held before is the object of the argument. -/
theorem stored_of_storePair (hp : BorrowedPair w others p) (hrun : storePair p w = (.ok e, w')) :
    StoredPair w w' p e ∧ ∀ x ∈ held, e.1 = some x → p.1.object? = some x := by
  obtain ⟨key, w₁, hkey, hrest⟩ := run_bind_eq_ok.mp hrun
  obtain ⟨value, w₂, hvalue, hrest⟩ := run_bind_eq_ok.mp hrest
  obtain ⟨_, w₃, hask, hdone⟩ := run_bind_eq_ok.mp hrest
  cases hdone
  obtain ⟨h₁, hcontinues, -, hstoredKey⟩ := h.stores hcs hp.1 hkey
  obtain ⟨h₂, -, hproceeds, hstoredValue⟩ := h₁.stores hcs
    (hp.2.since hcontinues.proceeds.since) (Run.releasingOnFault_eq_ok.mp hvalue)
  have hlast : w₂.Proceeds (value.toList ++ (key.toList ++ held)) w' := h₂.proceeds hcs
    ((Run.quiet_askKey key).conserves [] h₂.balanced) (Run.advances_askKey hcs.covers key)
    (Run.releasingOnFault_eq_ok.mp hask)
  have hheld : key.toList ⊆ key.toList ++ held := List.subset_append_left _ _
  have hproceedsKey : w₁.Proceeds key.toList w' :=
    (hproceeds.mono hheld).trans (hlast.mono fun x hx => List.mem_append_right _ (hheld hx))
  refine ⟨⟨hstoredKey.later hproceedsKey fun x hx => .of_mem (by simp [hx]), ?_⟩,
    fun x hx hsome => hstoredKey.eq_of_held h hx hsome⟩
  refine (hstoredValue.earlier hcontinues.proceeds).later hlast fun x hx => ?_
  exact .of_mem (by simp [hx])

/-- The pairs are stored one after another. -/
theorem stored_of_mapOwned (hgiven : ∀ p ∈ given, BorrowedPair w others p)
    (hrun : Run.mapOwned entryReferences storePair given w = (.ok es, w')) :
    Ready P cs others (es.flatMap entryReferences ++ held) w' ∧ w.Continues cs others w' ∧
      List.Forall₂ (StoredPair w w') given es ∧
      es.Pairwise fun e d => ∀ x, e.1 = some x → d.1 = some x → w.heap.Reachable others x := by
  have hconserves : w.StepsConserve P cs others entryReferences storePair given :=
    fun p hp w₁ held₁ h₁ hcontinues => conserves_storePair h₁.balanced
      ⟨fun x hx => h₁.reachable (((hgiven p hp).since hcontinues.proceeds.since).1 x hx),
        fun x hx => h₁.reachable (((hgiven p hp).since hcontinues.proceeds.since).2 x hx)⟩
  have hmade : ∀ p ∈ given, ∀ w₁ held₁ e w₂, Ready P cs others held₁ w₁ →
      w.Continues cs others w₁ → storePair p w₁ = (.ok e, w₂) → StoredPair w w₂ p e ∧
        ∀ e₀ : Ref × Ref, (∀ x ∈ entryReferences e₀, x ∈ held₁) →
          ∀ x, e₀.1 = some x → e.1 = some x → w.heap.Reachable others x := by
    intro p hp w₁ held₁ e w₂ h₁ hcontinues hpair
    obtain ⟨hstored, hold⟩ := stored_of_storePair h₁ hcs
      ((hgiven p hp).since hcontinues.proceeds.since) hpair
    refine ⟨⟨hstored.1.earlier hcontinues.proceeds, hstored.2.earlier hcontinues.proceeds⟩,
      fun e₀ he₀ x hx hx' => (hgiven p hp).1 x (hold x (he₀ x (by simp [hx])) hx')⟩
  obtain ⟨h', hcontinues, -, hall, hapart, -⟩ := Run.mapOwned_made (R := fun w' => StoredPair w w')
    (S := fun e d => ∀ x, e.1 = some x → d.1 = some x → w.heap.Reachable others x) hcs
    (advances_storePair hcs.covers) (fun hproceeds hstored => hstored.later hproceeds) h hconserves
    hmade hrun
  exact ⟨h', hcontinues, hall, hapart⟩

/-- They are stored if all arguments can be converted. -/
theorem decides_storePairs (hgiven : ∀ p ∈ given, BorrowedPair w others p) :
    Decides (∀ p ∈ given, w.recalled.Convertible .object p.1 ∧ w.recalled.Convertible .object p.2)
      (Run.mapOwned entryReferences storePair given) w := by
  have hwithin : RefType.object.Within (· ∈ cs) := hcs.root
  refine Run.decides_mapOwned hcs (advances_storePair hcs.covers) h
    fun p hp w₁ held₁ h₁ hcontinues => ?_
  have hp₁ := (hgiven p hp).since hcontinues.proceeds.since
  refine ⟨conserves_storePair h₁.balanced ⟨fun x hx => h₁.reachable (hp₁.1 x hx),
    fun x hx => h₁.reachable (hp₁.2 x hx)⟩, (decides_storePair h₁ hcs hp₁).congr ?_⟩
  rw [hcontinues.resembles.convertible_iff hcs hwithin (hgiven p hp).1,
    hcontinues.resembles.convertible_iff hcs hwithin (hgiven p hp).2]

omit h in
/-- The entries that are kept are well made. -/
theorem ready_kept (h : Ready P cs others (es.flatMap entryReferences ++ held) w')
    (hgiven : ∀ p ∈ given, BorrowedPair w' others p)
    (hall : List.Forall₂ (StoredPair w w') given es) :
    Ready P cs ((ordered w'.sameKey es).flatMap entryReferences ++ others)
      (es.flatMap entryReferences ++ held) w' := by
  have hparts : ∀ x ∈ (ordered w'.sameKey es).flatMap entryReferences,
      (∃ e ∈ es, e.1 = some x) ∨ ∃ e ∈ es, e.2 = some x := by
    intro x hx
    obtain ⟨e, he, hx⟩ := List.mem_flatMap.mp hx
    obtain ⟨⟨v, hv⟩, k, hk⟩ := mem_of_mem_ordered he
    rcases List.mem_append.mp hx with hx | hx
    · exact .inl ⟨_, hv, Option.mem_toList.mp hx⟩
    · exact .inr ⟨_, hk, Option.mem_toList.mp hx⟩
  refine h.adopt (fun x hx => List.mem_append_left _ ?_) ?_
  · rcases hparts x hx with ⟨e, he, hx⟩ | ⟨e, he, hx⟩
    all_goals exact List.mem_flatMap.mpr ⟨e, he, by simp [hx]⟩
  · rintro y ⟨x, hx, hxy⟩
    have hbelow : w'.heap.Reachable (some x : Ref).toList y := ⟨x, List.mem_cons_self, hxy⟩
    rcases hparts x hx with ⟨e, he, hx⟩ | ⟨e, he, hx⟩
    all_goals obtain ⟨p, hp, hkey, hvalue⟩ := exists_mem_of_forall₂ hall he
    · exact hkey.inOrder h hcs (hgiven p hp).1 (hx ▸ hbelow)
    · exact hvalue.inOrder h hcs (hgiven p hp).2 (hx ▸ hbelow)

omit h in
/-- Entries that have been stored are collected into a new map. -/
theorem ofList_ready (h : Ready P cs others (es.flatMap entryReferences ++ held) w')
    (hamong : ∀ x ∈ others, x ∈ held) (hgiven : ∀ p ∈ given, BorrowedPair w' others p)
    (hall : List.Forall₂ (StoredPair w w') given es) :
    ∃ m w₁, Dict.ofList es w' = (.ok (some m), w₁) ∧ Ready P cs (m :: others) (m :: held) w₁ ∧
      w'.Continues cs others w₁ ∧ w'.heap.cells.size ≤ m.index ∧
      w₁.ObjectAt m .map (.map (ordered w'.sameKey es)) ∧
      w'.Proceeds ((ordered w'.sameKey es).flatMap entryReferences) w₁ := by
  have hmap : ObjectClass.map ∈ cs := hcs.builtins .map (by decide)
  obtain ⟨kept, w₁, hcollect, m, w₂, hcreate⟩ : ∃ kept w₁, Run.collectEntries es w' = (.ok kept, w₁) ∧
      ∃ m w₂, Run.create .map (.map kept) w₁ = (.ok m, w₂) := by
    obtain ⟨kept, w₁, hcollect⟩ := (h.decides_collectEntries hcs es).ok_iff.mpr trivial
    obtain ⟨h₁, -⟩ := h.spends hcs hamong (Run.conserves_collectEntries h.balanced)
      (Run.advances_collectEntries hcs.covers es) hcollect
    exact ⟨kept, w₁, hcollect, (h₁.decides_create hcs hmap _).ok_iff.mpr trivial⟩
  have hlist : Dict.ofList es w' = (.ok (some m), w₂) :=
    (run_bind_of_ok hcollect).trans (run_bind_of_ok hcreate)
  obtain ⟨hmade, h₂, hcontinues⟩ :=
    World.Ready.collected hcs h hamong ((run_bind_of_ok hcollect).trans hcreate)
  obtain ⟨id, hid, hrenews⟩ := Dict.renews_ofList h.balanced hlist
  cases hid
  rw [foldl_insertEntry_eq_ordered] at hrenews
  have hadvanced := (Dict.advances_ofList hcs.covers es w').types
  rw [hlist] at hadvanced
  have hkept := ready_kept hcs h hgiven hall
  exact ⟨m, w₂, hlist, hkept.renews hcs hmap hrenews hadvanced
    (World.fills_map (pairwise_ordered _ _)) hamong, hcontinues, hmade.1, hrenews.made,
    hrenews.proceeds hcontinues.proceeds.later⟩

omit hcs in
/-- What has been stored is ordered as the arguments are. -/
theorem storedPair_ordered (hgiven : ∀ p ∈ given, BorrowedPair w others p)
    (hsince : Since w others w') (hall : List.Forall₂ (StoredPair w w') given es)
    (hapart : es.Pairwise fun e d =>
      ∀ x, e.1 = some x → d.1 = some x → w.heap.Reachable others x) :
    List.Forall₂ (StoredPair w w') (w.argumentEntries given) (ordered w'.sameKey es) := by
  obtain ⟨hlength, hpairs⟩ := List.forall₂_iff_zip.mp hall
  have hfirst : (given.zip es).map Prod.fst = given := List.map_fst_zip hlength.le
  have hsecond : (given.zip es).map Prod.snd = es := List.map_snd_zip hlength.ge
  have hstored : ∀ q ∈ given.zip es, StoredPair w w' q.1 q.2 ∧ BorrowedPair w others q.1 :=
    fun q hq => ⟨hpairs hq, hgiven q.1 (List.of_mem_zip hq).1⟩
  have hzip : (given.zip es).Pairwise fun q q' =>
      ∀ x, q.2.1 = some x → q'.2.1 = some x → w.heap.Reachable others x := by
    rw [← hsecond, List.pairwise_map] at hapart
    exact hapart
  have hsame : (given.zip es).Pairwise fun q q' =>
      w'.sameKey q.2.1 q'.2.1 = decide (SameArgument w q.1.1 w q'.1.1) := by
    refine hzip.imp_of_mem fun {q q'} hq hq' hnew => ?_
    exact (hstored q hq).1.1.sameKey (hstored q' hq').1.1 h hsince (hstored q hq).2.1
      (hstored q' hq').2.1 hnew
  have hordered : List.Forall₂ (StoredPair w w') (w.argumentEntries ((given.zip es).map Prod.fst))
      (ordered w'.sameKey ((given.zip es).map Prod.snd)) :=
    forall₂_ordered (given.zip es) (fun q hq => (hstored q hq).1) hsame
  rwa [hfirst, hsecond] at hordered

/-- Keys and values that take turns make a map with one entry for each key. -/
theorem makeMap_ready (hvs : ∀ v ∈ vs, Borrowed w others v)
    (hconverts : ∀ v ∈ vs, w.recalled.Convertible .object v) (heven : vs.length % 2 = 0) :
    ∃ m es w', (makeMap vs : Run κ Value) w = (.ok (.object .object m), w') ∧
      Ready P cs (m :: others) (m :: held) w' ∧ w.Proceeds others w' ∧
      w.heap.cells.size ≤ m.index ∧ w'.payload? m = some (.map es) ∧
      List.Forall₂ (StoredPair w w') (w.argumentEntries (Loading.pairs vs)) es := by
  have hgiven : ∀ p ∈ Loading.pairs vs, p.1 ∈ vs ∧ p.2 ∈ vs := fun p hp => mem_of_mem_pairs hp
  obtain ⟨first, w₁, htouch, h₁, hcontinues₁, -⟩ := h.touches hcs (hcs.builtins .map (by decide))
  -- the pairs are stored
  have hborrowed : ∀ p ∈ Loading.pairs vs, BorrowedPair w others p := fun p hp =>
    ⟨hvs _ (hgiven p hp).1, hvs _ (hgiven p hp).2⟩
  have hborrowed₁ : ∀ p ∈ Loading.pairs vs, BorrowedPair w₁ others p := fun p hp =>
    (hborrowed p hp).since hcontinues₁.proceeds.since
  have hwithin : RefType.object.Within (· ∈ cs) := hcs.root
  have hconverts₁ : ∀ v ∈ vs, w₁.recalled.Convertible .object v := fun v hv =>
    (hcontinues₁.resembles.convertible_iff hcs hwithin (hvs v hv)).mpr (hconverts v hv)
  obtain ⟨es, w₂, hloop⟩ := (decides_storePairs h₁ hcs hborrowed₁).ok_iff.mpr fun p hp =>
    ⟨hconverts₁ _ (hgiven p hp).1, hconverts₁ _ (hgiven p hp).2⟩
  obtain ⟨h₂, hcontinues₂, hall₁, hapart₁⟩ := stored_of_mapOwned h₁ hcs hborrowed₁ hloop
  have hproceeds₂ := (hcontinues₁.trans hcontinues₂).proceeds
  have hall : List.Forall₂ (StoredPair w w₂) (Loading.pairs vs) es := hall₁.imp fun p e hpair =>
    ⟨hpair.1.earlier hcontinues₁.proceeds, hpair.2.earlier hcontinues₁.proceeds⟩
  have hapart : es.Pairwise fun e d =>
      ∀ x, e.1 = some x → d.1 = some x → w.heap.Reachable others x := hapart₁.imp fun hold x hx hx' =>
    h.reachable_back hcontinues₁.proceeds.since (hold x hx hx')
  have hordered := storedPair_ordered h hborrowed hproceeds₂.since hall hapart
  -- the entries are collected
  obtain ⟨m, w₃, hlist, h₃, hcontinues₃, hnew, hat, hkept⟩ := ofList_ready hcs h₂ h.among
    (fun p hp => (hborrowed p hp).since hproceeds₂.since) hall
  have hreach : w₃.Reaches (m :: others) (some m) := by
    rintro x hx
    cases hx
    exact .of_mem List.mem_cons_self
  have hleaf : ObjectClass.map.IsLeaf :=
    RefType.IsContainer.isLeaf (t := .map .object .object) trivial
  have htravels : w₃.recalled.classifyRef (some m) false = .object .object m :=
    h₃.classify_other hcs hat.cls hleaf (by decide)
  obtain ⟨w₄, hencode, h₄, hcontinues₄⟩ := h₃.encodeRef_of_object hcs hreach
    (a := m) (by rw [htravels]; rfl)
  rw [htravels] at hencode
  have hothers₄ : w₃.Proceeds others w₄ :=
    hcontinues₄.proceeds.mono fun x hx => List.mem_cons_of_mem m hx
  refine ⟨m, _, w₄, ?_, h₄, hproceeds₂.trans (hcontinues₃.proceeds.trans hothers₄),
    hproceeds₂.size_le.trans hnew,
    hcontinues₄.proceeds.since.content (.of_mem List.mem_cons_self) hat.content,
    forall₂_imp_mem hordered fun p e _ he hpair => ?_⟩
  · rw [makeMap_eq, run_bind_of_ok htouch, argPairs, if_neg (by simp [heven]), pure_bind,
      run_bind_of_ok hloop, run_bind_of_ok hlist]
    exact hencode
  · have hheld : ∀ x ∈ entryReferences e,
        x ∈ (ordered w₂.sameKey es).flatMap entryReferences := fun x hx =>
      List.mem_flatMap.mpr ⟨e, he, hx⟩
    refine (hpair.later (hkept.mono hheld)).later (hcontinues₄.proceeds.of_reachable fun x hx => ?_)
    exact Run.reachable_of_payload (.of_mem List.mem_cons_self) hat.content (hheld x hx)

end

end Builtin

end ObjectRuntime

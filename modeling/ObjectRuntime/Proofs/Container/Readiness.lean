import ObjectRuntime.Proofs.Function.Boxing
import ObjectRuntime.Proofs.TypeTable.Vocabulary
set_option autoImplicit false

/-!
# What is settled before a conversion asks

A conversion looks classes up while it goes through a container, so each element is converted in a
world of its own.  What it finds out there has been settled all along: to which classes of the
vocabulary the objects belong, how they travel and what a check finds.  `World.recalled` is the
world in which every class that is registered has been looked up, and tells the answers in advance.
-/

namespace ObjectRuntime

open ObjectClass (Vocabulary)
open Run (Advances Conserves Quiet)
open World (Balanced Since)

variable {κ α : Type} {P : κ → Prop} {w w' w₁ u : World κ} {cs : List ObjectClass}
  {others held : List ObjId} {a id : ObjId} {c : ObjectClass} {r : Ref} {t : RefType}

theorem ObjectClass.Vocabulary.covers (h : Vocabulary cs) : ObjectClass.Covers (· ∈ cs) :=
  ⟨h.builtins, h.root⟩

/-! ## Registered classes -/

namespace TypeTable

variable {t : TypeTable} {i : Nat}

/-- The table in which every class that is registered has been looked up. -/
def recalled (t : TypeTable) : TypeTable := { t with known := t.keys }

theorem climbs_recalled (t : TypeTable) (ancestor fuel child : Nat) :
    t.recalled.climbs ancestor fuel child = t.climbs ancestor fuel child := by
  induction fuel generalizing child with
  | zero => rfl
  | succ fuel ih =>
      have hsame : t.recalled.typeAt? child = t.typeAt? child := rfl
      simp only [climbs, ih, hsame]

theorem isInstance_recalled (t : TypeTable) (i first : Nat) (c : ObjectClass) :
    t.recalled.isInstance i first c = t.isInstance i first c := by
  simp only [isInstance, derivedFrom, climbs_recalled]

theorem Regular.classIndex?_recalled (h : Regular t) (c : ObjectClass) :
    t.recalled.classIndex? c = t.index? c.key := by
  cases c with
  | root => exact h.rooted.symm
  | derived decl base => rfl

end TypeTable

/-- Nothing new can be reached from what has been left alone. -/
theorem Heap.Intact.reachable_back {h h' : Heap κ}
    (hi : Heap.Intact held h h') (halive : ∀ x, h.Reachable held x → ∃ o, h.get? x = some o)
    (hx : h'.Reachable held a) : h.Reachable held a := by
  obtain ⟨r, hr, hreach⟩ := hx
  induction hreach with
  | refl => exact .of_mem hr
  | tail _ hstep ih =>
      obtain ⟨o', ho', hy⟩ := hstep
      obtain ⟨o, ho⟩ := halive _ ih
      obtain ⟨n, hn⟩ := hi _ o ih ho
      obtain rfl := Option.some.inj (hn.symm.trans ho')
      exact ih.step ho hy

/-- A new object changes nothing that was there. -/
theorem Run.since_create {payload : Payload κ} (others : List ObjId)
    (hrun : Run.create c payload w = (.ok id, w')) : Since w others w' := by
  have hsince := (Run.quiet_touch c).since w others
  obtain ⟨first, w₁, htouch, hheap, -, -, rfl⟩ := Run.create_inv hrun
  rw [htouch] at hsince
  rw [← hheap]
  exact hsince.trans ⟨Heap.becomes_alloc _ _ _, .of_grown (Heap.grown_alloc _ _ _), fun hc => hc⟩

namespace World

/-- The world in which every class that is registered has been looked up. -/
def recalled (w : World κ) : World κ := { w with types := w.types.recalled }

theorem isInstance_recalled (h : w.types.Regular) (a : ObjId) (c : ObjectClass) :
    w.recalled.isInstance a c = w.types.isMember (w.typeIndex a) c := by
  have hindex : w.recalled.types.classIndex? c = w.types.index? c.key := h.classIndex?_recalled c
  rw [isInstance, hindex, TypeTable.isMember]
  cases w.types.index? c.key with
  | none => rfl
  | some first => exact TypeTable.isInstance_recalled _ _ _ _

/-- A class that has been looked up has the members that it has anyway. -/
theorem isInstance_eq_recalled {first : Nat} (h : w.types.Regular)
    (hfirst : w.types.classIndex? c = some first) (a : ObjId) :
    w.isInstance a c = w.recalled.isInstance a c := by
  rw [isInstance_recalled h, h.isMember_eq hfirst, isInstance_of_classIndex? hfirst]

/-! ## First mismatches -/

/-- Two checks have the same answers up to the first mismatch. -/
def AgreeUntil {β γ : Type} (f g : β → Option γ) : List β → Prop
  | [] => True
  | b :: bs => f b = g b ∧ (g b = none → AgreeUntil f g bs)

theorem AgreeUntil.of_forall {β γ : Type} {f g : β → Option γ} {bs : List β}
    (h : ∀ b ∈ bs, f b = g b) : AgreeUntil f g bs := by
  induction bs with
  | nil => trivial
  | cons b bs ih =>
      obtain ⟨hb, hbs⟩ := List.forall_mem_cons.mp h
      exact ⟨hb, fun _ => ih hbs⟩

theorem AgreeUntil.firstMismatch_eq {f g : Ref → Option String} {rs : List Ref}
    (h : AgreeUntil f g rs) (start : Nat) :
    firstMismatch f start rs = firstMismatch g start rs := by
  induction rs generalizing start with
  | nil => rfl
  | cons r rs ih =>
      obtain ⟨hr, hrs⟩ := h
      rw [firstMismatch, firstMismatch, hr]
      cases hg : g r with
      | none => exact ih (hrs hg) _
      | some m => rfl

theorem AgreeUntil.findSome?_eq {β γ : Type} {f g : β → Option γ} {bs : List β}
    (h : AgreeUntil f g bs) : bs.findSome? f = bs.findSome? g := by
  induction bs with
  | nil => rfl
  | cons b bs ih =>
      obtain ⟨hb, hbs⟩ := h
      rw [List.findSome?_cons, List.findSome?_cons, hb]
      cases hg : g b with
      | none => exact ih (hbs hg)
      | some m => rfl

/-- The mismatch of an entry, its key first. -/
def entryMismatch? (w : World κ) (key value : RefType) (e : Ref × Ref) : Option String :=
  match w.mismatch? key e.1 with
  | some m => some ("Map[" ++ m ++ ", " ++ value.typeName ++ "]")
  | none => (w.mismatch? value e.2).map fun m => "Map[" ++ key.typeName ++ ", " ++ m ++ "]"

theorem entryMismatch?_eq_none {key value : RefType} {e : Ref × Ref} :
    w.entryMismatch? key value e = none ↔
      w.mismatch? key e.1 = none ∧ w.mismatch? value e.2 = none := by
  unfold entryMismatch?
  cases w.mismatch? key e.1 <;> simp

theorem isNone_entryMismatch? (w : World κ) (key value : RefType) (e : Ref × Ref) :
    (w.entryMismatch? key value e).isNone =
      ((w.mismatch? key e.1).isNone && (w.mismatch? value e.2).isNone) := by
  unfold entryMismatch?
  cases w.mismatch? key e.1 <;> simp

theorem mismatch?_array {elem : RefType} {elems : List Ref}
    (hcontent : w.payload? a = some (.array elems)) :
    w.mismatch? (.array elem) (some a) =
      (firstMismatch (w.mismatch? elem) 0 elems).map fun (i, m) => s!"Array[index {i}: {m}]" := by
  rw [mismatch?, hcontent]

theorem mismatch?_map {key value : RefType} {entries : List (Ref × Ref)}
    (hcontent : w.payload? a = some (.map entries)) :
    w.mismatch? (.map key value) (some a) = entries.findSome? (w.entryMismatch? key value) := by
  rw [mismatch?, hcontent]
  rfl

/-- Whether an object is an array, and which of its elements does not pass, settles what a check
finds. -/
theorem mismatch?_array_congr {elem : RefType} (hpayload : u.payload? a = w.payload? a)
    (hkey : u.typeKey a = w.typeKey a)
    (hagree : AgreeUntil (u.mismatch? elem) (w.mismatch? elem) (w.elements (some a))) :
    u.mismatch? (.array elem) (some a) = w.mismatch? (.array elem) (some a) := by
  cases hcontent : w.payload? a with
  | none => simp only [mismatch?, hpayload, hcontent, hkey]
  | some content =>
      rw [hcontent] at hpayload
      cases content with
      | array elems =>
          rw [Arr.elements_of_payload hcontent] at hagree
          rw [mismatch?_array hpayload, mismatch?_array hcontent, hagree.firstMismatch_eq]
      | _ => simp only [mismatch?, hpayload, hcontent, hkey]

/-- The same of maps. -/
theorem mismatch?_map_congr {key value : RefType} (hpayload : u.payload? a = w.payload? a)
    (hkey : u.typeKey a = w.typeKey a)
    (hagree : AgreeUntil (u.entryMismatch? key value) (w.entryMismatch? key value)
      (w.entries (some a))) :
    u.mismatch? (.map key value) (some a) = w.mismatch? (.map key value) (some a) := by
  cases hcontent : w.payload? a with
  | none => simp only [mismatch?, hpayload, hcontent, hkey]
  | some content =>
      rw [hcontent] at hpayload
      cases content with
      | map entries =>
          rw [Dict.entries_of_payload hcontent] at hagree
          rw [mismatch?_map hpayload, mismatch?_map hcontent, hagree.findSome?_eq]
      | _ => simp only [mismatch?, hpayload, hcontent, hkey]

/-! ## Worlds that look alike -/

/-- The objects that others can reach have the same contents and belong to the same classes. -/
structure Resembles (cs : List ObjectClass) (others : List ObjId) (w u : World κ) : Prop where
  member : ∀ a, w.heap.Reachable others a → ∀ c ∈ cs, u.isInstance a c = w.isInstance a c
  payload : ∀ a, w.heap.Reachable others a → u.payload? a = w.payload? a
  key : ∀ a, w.heap.Reachable others a → u.typeKey a = w.typeKey a

/-- A reference to nothing, or to an object that others can reach. -/
def Reaches (w : World κ) (others : List ObjId) (r : Ref) : Prop :=
  ∀ a, r = some a → w.heap.Reachable others a

theorem Reaches.element {elems : List Ref} (ha : w.heap.Reachable others a)
    (hcontent : w.payload? a = some (.array elems)) {e : Ref} (he : e ∈ elems) :
    w.Reaches others e := by
  rintro x rfl
  exact Run.reachable_of_payload ha hcontent (List.reduceOption_mem_iff.mpr he)

theorem Reaches.entry {entries : List (Ref × Ref)} (ha : w.heap.Reachable others a)
    (hcontent : w.payload? a = some (.map entries)) {e : Ref × Ref} (he : e ∈ entries) :
    w.Reaches others e.1 ∧ w.Reaches others e.2 := by
  have hbelow : ∀ x, e.1 = some x ∨ e.2 = some x → w.heap.Reachable others x := by
    intro x hx
    refine Run.reachable_of_payload ha hcontent (List.mem_flatMap.mpr ⟨e, he, ?_⟩)
    rcases hx with hx | hx <;> simp [hx]
  exact ⟨fun x hx => hbelow x (.inl hx), fun x hx => hbelow x (.inr hx)⟩

namespace Resembles

variable (h : Resembles cs others w u) (hcs : Vocabulary cs)
include h hcs

theorem classify (ha : w.heap.Reachable others a) (moved : Bool) :
    u.classify a moved = w.classify a moved := by
  have hmember : ∀ c ∈ ObjectClass.builtins, u.isInstance a c = w.isInstance a c :=
    fun c hc => h.member a ha c (hcs.builtins c hc)
  simp only [World.classify, boxed?, h.payload a ha, hmember .tensor (by decide),
    hmember .module (by decide), hmember .function (by decide), hmember .boxBool (by decide),
    hmember .boxInt (by decide), hmember .boxFloat (by decide)]

theorem classifyRef (hr : w.Reaches others r) (moved : Bool) :
    u.classifyRef r moved = w.classifyRef r moved := by
  cases r with
  | none => rfl
  | some a => exact h.classify hcs (hr a rfl) moved

omit hcs in
/-- A check finds the same. -/
theorem mismatch? (ht : t.Within (· ∈ cs)) (hr : w.Reaches others r) :
    u.mismatch? t r = w.mismatch? t r := by
  induction t generalizing r with
  | named name cls =>
      cases r with
      | none => rfl
      | some a =>
          simp only [World.mismatch?, h.member a (hr a rfl) cls ht, h.key a (hr a rfl)]
  | array elem ih =>
      cases r with
      | none => rfl
      | some a =>
          have ha := hr a rfl
          refine mismatch?_array_congr (h.payload a ha) (h.key a ha) (.of_forall fun e he => ?_)
          exact ih ht fun x hx => Run.reachable_element ha he hx
  | map key value ihKey ihValue =>
      cases r with
      | none => rfl
      | some a =>
          have ha := hr a rfl
          refine mismatch?_map_congr (h.payload a ha) (h.key a ha) (.of_forall fun e he => ?_)
          have hreach := fun x hx => Run.reachable_entry (x := x) ha he hx
          simp only [entryMismatch?, ihKey ht.1 fun x hx => hreach x (.inl hx),
            ihValue ht.2 fun x hx => hreach x (.inr hx)]

end Resembles

/-! ## Worlds that are ready for conversions -/

/-- The type of the object is registered, it is that of arrays or of maps if its content is, and no
two entries have the same key. -/
structure InOrder (w : World κ) (a : ObjId) : Prop where
  registered : ∃ e, w.types.typeAt? (w.typeIndex a) = some e
  array : w.types.index? ObjectClass.array.key = some (w.typeIndex a) ↔
    ∃ elems, w.payload? a = some (.array elems)
  map : w.types.index? ObjectClass.map.key = some (w.typeIndex a) ↔
    ∃ entries, w.payload? a = some (.map entries)
  keys : ∀ entries, w.payload? a = some (.map entries) →
    entries.Pairwise fun e d => w.sameKey e.1 d.1 = false

/-- The table is equipped with the vocabulary, every reference is counted, and what others can reach
is well made. -/
structure Ready (P : κ → Prop) (cs : List ObjectClass) (others held : List ObjId) (w : World κ) :
    Prop where
  equipped : w.types.Equipped cs
  balanced : w.Balanced P held
  among : ∀ x ∈ others, x ∈ held
  made : ∀ a, w.heap.Reachable others a → w.InOrder a

/-- Keys that others can reach are as different as they were. -/
theorem Since.sameKey {k l : Ref} (h : Since w others w') (hb : w.Balanced P held)
    (hsub : ∀ x ∈ others, x ∈ held) (hk : w.Reaches others k) (hl : w.Reaches others l) :
    w'.sameKey k l = w.sameKey k l :=
  Dict.sameKey_eq (fun x hx => h.payload? hb (hk x hx) hsub)
    fun x hx => h.payload? hb (hl x hx) hsub

/-- What may have happened meanwhile, as others see it.  What was settled is settled as before. -/
structure Continues (cs : List ObjectClass) (others : List ObjId) (w w' : World κ) : Prop where
  proceeds : w.Proceeds others w'
  resembles : Resembles cs others w.recalled w'.recalled

namespace Continues

theorem refl (h : w.types.Regular) (cs : List ObjectClass) (others : List ObjId) :
    Continues cs others w w :=
  ⟨.refl h others, fun _ _ _ _ => rfl, fun _ _ => rfl, fun _ _ => rfl⟩

theorem trans (h : Continues cs others w w₁) (h' : Continues cs others w₁ w') :
    Continues cs others w w' := by
  have hreach : ∀ {a}, w.heap.Reachable others a → w₁.heap.Reachable others a :=
    h.proceeds.since.reachable
  exact ⟨h.proceeds.trans h'.proceeds,
    fun a ha c hc => (h'.resembles.member a (hreach ha) c hc).trans (h.resembles.member a ha c hc),
    fun a ha => (h'.resembles.payload a (hreach ha)).trans (h.resembles.payload a ha),
    fun a ha => (h'.resembles.key a (hreach ha)).trans (h.resembles.key a ha)⟩

variable (h : Continues cs others w w')
include h

theorem reaches (hr : w.Reaches others r) : w'.Reaches others r :=
  fun a ha => h.proceeds.since.reachable (hr a ha)

/-- The contents that others can reach are as they were. -/
theorem payload? (ha : w.heap.Reachable others a) : w'.payload? a = w.payload? a :=
  h.resembles.payload a ha

theorem elements (ha : w.heap.Reachable others a) :
    w'.elements (some a) = w.elements (some a) := by
  simp only [World.elements, Option.bind_some, h.payload? ha]

theorem entries (ha : w.heap.Reachable others a) : w'.entries (some a) = w.entries (some a) := by
  simp only [World.entries, Option.bind_some, h.payload? ha]

end Continues

namespace Ready

variable (h : Ready P cs others held w) (hcs : Vocabulary cs)
include h

theorem regular : w.types.Regular := h.equipped.serves.regular

theorem reachable (ha : w.heap.Reachable others a) : w.heap.Reachable held a := ha.mono h.among

/-- Looking classes up and taking care of references leaves everything settled. -/
theorem resembles (hcs : Vocabulary cs) (hsince : Since w others w')
    (hadvanced : w.types.Advanced (· ∈ cs) w'.types) :
    Resembles cs others w.recalled w'.recalled where
  member a ha c hc := by
    obtain ⟨e, he⟩ := (h.made a ha).registered
    have hlarger := TypeTable.Enlarged.of_advanced hcs h.regular hadvanced
    rw [isInstance_recalled h.regular, isInstance_recalled hlarger.later.regular,
      hsince.typeIndex h.balanced h.among ha]
    exact hlarger.isMember_eq hcs h.regular hc he
  payload a ha := hsince.payload? h.balanced ha h.among
  key a ha := by
    obtain ⟨e, he⟩ := (h.made a ha).registered
    have hlarger := TypeTable.Enlarged.of_advanced hcs h.regular hadvanced
    have hkey : w'.typeKey a = w.typeKey a := by
      rw [typeKey, typeKey, hsince.typeIndex h.balanced h.among ha, hlarger.later.showKey he]
    exact hkey

/-- What others can reach goes on being well made. -/
theorem inOrder (hcs : Vocabulary cs) (hsince : Since w others w')
    (hadvanced : w.types.Advanced (· ∈ cs) w'.types) (ha : w.heap.Reachable others a) :
    w'.InOrder a := by
  have hlarger := TypeTable.Enlarged.of_advanced hcs h.regular hadvanced
  obtain ⟨⟨e, he⟩, harray, hmap, hkeys⟩ := h.made a ha
  have htype := hsince.typeIndex h.balanced h.among ha
  have hpayload := hsince.payload? h.balanced ha h.among
  -- a class that is registered meanwhile has another index than the object
  have hindex : ∀ key, w'.types.index? key = some (w.typeIndex a) ↔
      w.types.index? key = some (w.typeIndex a) := by
    refine fun key => ⟨fun hi => ?_, hlarger.later.keys key _⟩
    rcases hlarger.added key _ hi with hi | ⟨hfree, -⟩
    · exact hi
    · cases hfree.symm.trans he
  obtain ⟨n, hn⟩ := hlarger.later.types _ e he
  refine ⟨⟨_, htype ▸ hn⟩, by rw [htype, hindex, harray, hpayload],
    by rw [htype, hindex, hmap, hpayload], fun entries hcontent => ?_⟩
  rw [hpayload] at hcontent
  refine (hkeys entries hcontent).imp_of_mem fun {x y} hx hy hne => ?_
  rw [hsince.sameKey h.balanced h.among (Reaches.entry ha hcontent hx).1
    (Reaches.entry ha hcontent hy).1, hne]

/-- Nothing else can be reached than before. -/
theorem reachable_back (hsince : Since w others w') (ha : w'.heap.Reachable others a) :
    w.heap.Reachable others a :=
  hsince.intact.reachable_back (fun _ hx => h.balanced.alive (h.reachable hx)) ha

/-- So the world goes on being ready, with other references held besides. -/
theorem step {held' : List ObjId} (hcs : Vocabulary cs) (hsince : Since w others w')
    (hadvanced : w.types.Advanced (· ∈ cs) w'.types) (hb : w'.Balanced P held')
    (hamong : ∀ x ∈ others, x ∈ held') :
    Ready P cs others held' w' ∧ w.Continues cs others w' := by
  have hlarger := TypeTable.Enlarged.of_advanced hcs h.regular hadvanced
  exact ⟨⟨h.equipped.advanced hcs hadvanced, hb, hamong,
    fun a ha => h.inOrder hcs hsince hadvanced (h.reachable_back hsince ha)⟩,
    ⟨hsince, hlarger.later⟩, h.resembles hcs hsince hadvanced⟩

/-- The world is ready for what comes after an operation that takes some references over, conserves
them and only looks classes of the vocabulary up. -/
theorem spends {gives : α → List ObjId} {rest keeps : List ObjId} {x : Run κ α} {b : α}
    (hcs : Vocabulary cs) (hamong : ∀ x ∈ others, x ∈ rest)
    (hx : Conserves P w rest gives keeps x) (hadvances : Advances (· ∈ cs) x)
    (hrun : x w = (.ok b, w')) :
    Ready P cs others (gives b ++ rest) w' ∧ w.Continues cs others w' := by
  obtain ⟨hsince, hb⟩ := hx.ok b w' hrun
  have hadvanced := (hadvances w).types
  rw [hrun] at hadvanced
  exact h.step hcs (hsince.mono hamong) hadvanced hb
    fun x hx => List.mem_append_right _ (hamong x hx)

theorem after {gives : α → List ObjId} {keeps : List ObjId} {x : Run κ α} {b : α}
    (hcs : Vocabulary cs) (hx : Conserves P w held gives keeps x) (hadvances : Advances (· ∈ cs) x)
    (hrun : x w = (.ok b, w')) :
    Ready P cs others (gives b ++ held) w' ∧ w.Continues cs others w' :=
  h.spends hcs h.among hx hadvances hrun

/-- Whoever holds references finds everything as it was. -/
theorem proceeds {gives : α → List ObjId} {rest keeps : List ObjId} {x : Run κ α} {b : α}
    (hcs : Vocabulary cs) (hx : Conserves P w rest gives keeps x) (hadvances : Advances (· ∈ cs) x)
    (hrun : x w = (.ok b, w')) : w.Proceeds rest w' := by
  obtain ⟨hsince, -⟩ := hx.ok b w' hrun
  have hadvanced := (hadvances w).types
  rw [hrun] at hadvanced
  exact ⟨hsince, (TypeTable.Enlarged.of_advanced hcs h.regular hadvanced).later⟩

theorem perm {held' : List ObjId} (hperm : List.Perm held' held) : Ready P cs others held' w :=
  ⟨h.equipped, h.balanced.perm hperm, fun x hx => hperm.mem_iff.mpr (h.among x hx), h.made⟩

/-- So it is for those who hold less. -/
theorem mono {others' : List ObjId} (hsub : ∀ x ∈ others', x ∈ others) :
    Ready P cs others' held w :=
  ⟨h.equipped, h.balanced, fun x hx => h.among x (hsub x hx), fun a ha => h.made a (ha.mono hsub)⟩

/-- Whatever comes of an operation that leaves the objects alone. -/
theorem quiet {x : Run κ α} {answer : Except Fault α} (hcs : Vocabulary cs) (hx : Quiet x)
    (hadvances : Advances (· ∈ cs) x) (hrun : x w = (answer, w')) :
    Ready P cs others held w' ∧ w.Continues cs others w' := by
  have hsince := hx.since w others
  have hb := hx.balanced h.balanced
  have hadvanced := (hadvances w).types
  rw [hrun] at hsince hb hadvanced
  exact h.step hcs hsince hadvanced hb h.among

end Ready

/-! ## How worlds become ready -/

/-- A world in which nothing has happened is ready. -/
theorem Ready.initial (hcs : Vocabulary cs) (hserves : TypeTable.initial.Serves cs) :
    Ready P cs [] [] (World.initial : World κ) where
  equipped := .initial hcs hserves
  balanced := .of_empty rfl
  among _ hx := hx
  made _ ha := by
    obtain ⟨_, hr, -⟩ := ha
    cases hr

/-- A content that makes an object of the class well made. -/
structure Fills (w : World κ) (c : ObjectClass) (payload : Payload κ) : Prop where
  array : c = .array ↔ ∃ elems, payload = .array elems
  map : c = .map ↔ ∃ entries, payload = .map entries
  keys : ∀ entries, payload = .map entries → entries.Pairwise fun e d => w.sameKey e.1 d.1 = false

theorem fills_array (w : World κ) (elems : List Ref) : w.Fills .array (.array elems) :=
  ⟨by simp, by simp [ObjectClass.array, ObjectClass.map, ObjectClass.reserved], by simp⟩

theorem fills_map {entries : List (Ref × Ref)}
    (hkeys : entries.Pairwise fun e d => w.sameKey e.1 d.1 = false) :
    w.Fills .map (.map entries) :=
  ⟨by simp [ObjectClass.array, ObjectClass.map, ObjectClass.reserved], by simp,
    by simpa using hkeys⟩

/-- A content of another kind makes an object of another class. -/
theorem fills_plain {payload : Payload κ} (w : World κ) (harray : c ≠ .array) (hmap : c ≠ .map)
    (helems : ∀ elems, payload ≠ .array elems) (hentries : ∀ entries, payload ≠ .map entries) :
    w.Fills c payload :=
  ⟨by simp [harray, helems], by simp [hmap, hentries], by simp [hentries]⟩

/-- A content goes on filling an object well while it is held. -/
theorem Fills.since {payload : Payload κ} (h : w.Fills c payload) (hsince : Since w others w')
    (hb : w.Balanced P held) (hsub : ∀ x ∈ others, x ∈ held)
    (hpayload : ∀ x ∈ payload.references, x ∈ others) : w'.Fills c payload := by
  refine ⟨h.array, h.map, ?_⟩
  rintro entries rfl
  have hreach : ∀ e ∈ entries, w.Reaches others e.1 := fun e he k hk =>
    .of_mem (hpayload k (List.mem_flatMap.mpr ⟨e, he, by simp [hk]⟩))
  refine (h.keys entries rfl).imp_of_mem fun {x y} hx hy hne => ?_
  rw [hsince.sameKey hb hsub (hreach x hx) (hreach y hy), hne]

/-- An object of a class of the vocabulary is well made if its content is. -/
theorem ObjectAt.inOrder {payload : Payload κ} (h : w.ObjectAt a c payload)
    (hequipped : w.types.Equipped cs) (hcs : Vocabulary cs) (hc : c ∈ cs)
    (hfills : w.Fills c payload) : w.InOrder a := by
  have hregular := hequipped.serves.regular
  have hindex := hregular.index?_classIndex h.cls
  have hclass : ∀ {d : ObjectClass}, d ∈ cs →
      (w.types.index? d.key = some (w.typeIndex a) ↔ c = d) := by
    refine fun hd => ⟨fun hi => hequipped.eq_of_index hcs hc hd hindex hi, ?_⟩
    rintro rfl
    exact hindex
  refine ⟨?_, ?_, ?_, fun entries hcontent => ?_⟩
  · obtain ⟨e, he, -⟩ := hregular.keyed _ _ hindex
    exact ⟨e, he⟩
  · rw [hclass (hcs.builtins .array (by decide)), hfills.array, h.content]
    simp only [Option.some.injEq]
  · rw [hclass (hcs.builtins .map (by decide)), hfills.map, h.content]
    simp only [Option.some.injEq]
  · exact hfills.keys entries (Option.some.inj (h.content.symm.trans hcontent))

/-- A program that makes well-made objects of what it holds leaves its world ready. -/
theorem Ready.create {payload : Payload κ} {b : ObjId}
    (h : Ready P cs (payload.references ++ held) (payload.references ++ held) w)
    (hcs : Vocabulary cs) (hc : c ∈ cs) (hsuits : Run.Suits P c payload)
    (hfills : w.Fills c payload) (hrun : Run.create c payload w = (.ok b, w')) :
    Ready P cs (b :: held) (b :: held) w' := by
  have hbefore : w.Balanced P (payload.references ++ ([] ++ held)) := h.balanced
  obtain ⟨-, hb⟩ := (Run.conserves_create [] hbefore hsuits).ok b w' hrun
  have hadvanced := (Run.advances_create hc payload w).types
  rw [hrun] at hadvanced
  have hsince := Run.since_create (payload.references ++ held) hrun
  have hequipped := h.equipped.advanced hcs hadvanced
  have hat := (Run.isFresh_of_create hrun).objectAt
  have hfills' := hfills.since hsince h.balanced h.among fun _ => List.mem_append_left _
  have hold : ∀ y ∈ payload.references ++ held, ∀ a, Relation.ReflTransGen w'.heap.Refers y a →
      w'.InOrder a := fun y hy a hya =>
    h.inOrder hcs hsince hadvanced (h.reachable_back hsince ⟨y, hy, hya⟩)
  refine ⟨hequipped, hb, fun _ hx => hx, ?_⟩
  rintro a ⟨r, hr, hreach⟩
  rcases List.mem_cons.mp hr with rfl | hr
  · rcases hreach.cases_head with rfl | ⟨y, ⟨o, ho, hy⟩, hya⟩
    · exact hat.inOrder hequipped hcs hc hfills'
    · obtain ⟨o', ho', rfl⟩ := hat.alive
      obtain rfl := Option.some.inj (ho.symm.trans ho')
      exact hold y (List.mem_append_left _ hy) a hya
  · exact hold r (List.mem_append_right _ hr) a hreach

/-- So it does where the object is known to be made. -/
theorem Ready.after_create {payload : Payload κ} {b : ObjId}
    (h : Ready P cs (payload.references ++ held) (payload.references ++ held) w)
    (hcs : Vocabulary cs) (hc : c ∈ cs) (hsuits : Run.Suits P c payload)
    (hfills : w.Fills c payload) (hresult : (Run.create c payload w).1.toOption = some b) :
    Ready P cs (b :: held) (b :: held) (Run.create c payload w).2 := by
  obtain ⟨w', hrun⟩ := run_of_toOption hresult
  rw [hrun]
  exact h.create hcs hc hsuits hfills hrun

end World

end ObjectRuntime

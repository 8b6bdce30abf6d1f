import ObjectRuntime.Proofs.Reflection.Objects
import ObjectRuntime.Proofs.Reflection.Questions
import ObjectRuntime.Reflection.Save
set_option autoImplicit false

/-!
# What a saved graph says

`Saving.Describes` says what the node of an object contains, given the numbers of the objects that
it holds.  Every node of a saved graph describes the object with its number (`describes_of_save`):
the numbers only grow while the graph is traversed, so what a node says stays true.
-/

namespace ObjectRuntime

namespace Saving

variable {κ α β : Type} {w v v' v'' : World κ} {id : ObjId} {n : Nat} {g : GraphNode}
  {num num' : Ref → Nat → Prop} {p p' p'' : Progress}

/-! ## Nodes -/

/-- The number of a reference; zero stands for nothing. -/
def Numbered (numbers : List (ObjId × Nat)) : Ref → Nat → Prop
  | none, n => n = 0
  | some id, n => numbers.lookup id = some n

/-- The text stands for the value of an attribute. -/
inductive AttrText (num : Ref → Nat → Prop) : Value → String → Prop
  | object {tag : ObjectTag} {id : ObjId} {n : Nat} (number : num (some id) n) :
      AttrText num (.object tag id) (toString n)
  | null : AttrText num .null "0"
  | int (n : I64) : AttrText num (.int n) (toString n)
  | float (x : Double) : AttrText num (.float x) x.toText
  | bool (b : Bool) : AttrText num (.bool b) (if b then "1" else "0")
  | text (s : String) : AttrText num (.text s) s
  | dataType (d : DataType) : AttrText num (.dataType d) d.toText
  | device {raw : RawDevice} {d : Device} (known : Device.ofRaw raw = .ok d) :
      AttrText num (.device raw) d.toText

/-- Numbers stand for the values of the entries of a map, whose keys are written beside them. -/
def EntryNumber (num : Ref → Nat → Prop) (e : Ref × Ref) (n : Nat) : Prop := num e.2 n

/-- Two numbers stand for the key and the value of an entry of a map. -/
def EntryNumbers (num : Ref → Nat → Prop) (e : Ref × Ref) (pair : List Nat) : Prop :=
  ∃ k v, pair = [k, v] ∧ num e.1 k ∧ num e.2 v

/-- A text with the name of an attribute stands for the attribute. -/
def NamedText (num : Ref → Nat → Prop) (a : Attr) (e : String × String) : Prop :=
  e.1 = a.key ∧ AttrText num a.value e.2

/-- The node says what the object contains. -/
def Describes (w : World κ) (num : Ref → Nat → Prop) (id : ObjId) (g : GraphNode) : Prop :=
  match w.payload? id with
  | some (.text s) => g = { blank (w.typeKey id) with text := some s }
  | some (.shape dims) => g = { blank (w.typeKey id) with text := some (showShape dims) }
  | some (.array elems) =>
    ∃ data, List.Forall₂ num elems data ∧ g = { blank (w.typeKey id) with data }
  | some (.map entries) =>
    match stringKeys? w entries with
    | some keys =>
      ∃ data, List.Forall₂ (EntryNumber num) entries data ∧
        g = { blank (w.typeKey id) with keys, data }
    | none =>
      ∃ pairs, List.Forall₂ (EntryNumbers num) entries pairs ∧
        g = { blank (w.typeKey id) with data := pairs.flatten }
  | some (.tensor t) =>
    ∃ saved, Blob.recordOf w id t = .ok saved ∧
      g = { blank (w.typeKey id) with base64 := some (Base64.encode saved.encode) }
  | _ =>
    ∃ attrs texts, w.attrs id = .ok attrs ∧ List.Forall₂ (NamedText num) attrs texts ∧
      g = { blank (w.typeKey id) with attrs := NameTable.sorted (NameTable.ofList texts) }

theorem AttrText.mono {x : Value} {s : String} (h : AttrText num x s)
    (hnum : ∀ r n, num r n → num' r n) : AttrText num' x s := by
  cases h with
  | object number => exact .object (hnum _ _ number)
  | null => exact .null
  | int n => exact .int n
  | float x => exact .float x
  | bool b => exact .bool b
  | text s => exact .text s
  | dataType d => exact .dataType d
  | device known => exact .device known

theorem EntryNumbers.mono {e : Ref × Ref} {pair : List Nat} (h : EntryNumbers num e pair)
    (hnum : ∀ r n, num r n → num' r n) : EntryNumbers num' e pair := by
  obtain ⟨k, v, hpair, hk, hv⟩ := h
  exact ⟨k, v, hpair, hnum _ _ hk, hnum _ _ hv⟩

theorem NamedText.mono {a : Attr} {e : String × String} (h : NamedText num a e)
    (hnum : ∀ r n, num r n → num' r n) : NamedText num' a e := ⟨h.1, h.2.mono hnum⟩

theorem Describes.mono (h : Describes w num id g) (hnum : ∀ r n, num r n → num' r n) :
    Describes w num' id g := by
  unfold Describes at *
  split
  all_goals rename_i hcontent; simp only [hcontent] at h
  · exact h
  · exact h
  · obtain ⟨data, hdata, rfl⟩ := h
    exact ⟨data, hdata.imp hnum, rfl⟩
  · split
    all_goals rename_i hkeys; simp only [hkeys] at h
    · obtain ⟨data, hdata, rfl⟩ := h
      exact ⟨data, hdata.imp fun _ _ he => hnum _ _ he, rfl⟩
    · obtain ⟨pairs, hpairs, rfl⟩ := h
      exact ⟨pairs, hpairs.imp fun _ _ he => he.mono hnum, rfl⟩
  · exact h
  · obtain ⟨attrs, texts, hattrs, htexts, rfl⟩ := h
    exact ⟨attrs, texts, hattrs, htexts.imp fun _ _ he => he.mono hnum, rfl⟩

/-! ## Questions -/

/-- What saving has asked about an object: whether it is a string, and if it shows attributes, how
the objects among them travel. -/
def Questioned (w v : World κ) (id : ObjId) : Prop :=
  v.Answered id [.string] ∧
    match w.payload? id with
    | some (.text _) | some (.shape _) | some (.array _) | some (.map _) | some (.tensor _) => True
    | _ => v.Reflecting ∧ ∀ a ∈ w.shown id, ∀ x, a.value.object? = some x →
        v.Answered x Run.travelClasses

theorem Questioned.mono (h : Questioned w v id) (hv : v.Asked v') : Questioned w v' id := by
  refine ⟨hv.answered h.1, ?_⟩
  have hrest := h.2
  split
  all_goals rename_i hcontent; simp only [hcontent] at hrest
  iterate 5 trivial
  exact ⟨hv.reflecting hrest.1, fun a ha x hx => hv.answered (hrest.2 a ha x hx)⟩

/-! ## Progress -/

/-- The numbers are the numbers of all nodes but the one that stands for nothing, and no two objects
have the same. -/
structure Sound (p : Progress) : Prop where
  start : 0 < p.nodes.size
  range : ∀ id n, p.numbers.lookup id = some n → 0 < n ∧ n < p.nodes.size
  filled : ∀ n, 0 < n → n < p.nodes.size → ∃ id, p.numbers.lookup id = some n
  injective : ∀ id id' n, p.numbers.lookup id = some n → p.numbers.lookup id' = some n → id = id'

/-- A part of the traversal gives numbers only to objects that have none, and the nodes that it adds
describe these objects. -/
structure Advance (w : World κ) (p : Progress) (v : World κ) (p' : Progress) (v' : World κ) :
    Prop where
  asked : v.Asked v'
  sound : Sound p'
  kept : ∀ id n, p.numbers.lookup id = some n → p'.numbers.lookup id = some n
  old : ∀ id n, p'.numbers.lookup id = some n → n < p.nodes.size → p.numbers.lookup id = some n
  size : p.nodes.size ≤ p'.nodes.size
  nodes : ∀ i, i < p.nodes.size → p'.nodes[i]? = p.nodes[i]?
  described : ∀ id n, p'.numbers.lookup id = some n → p.nodes.size ≤ n →
    (∃ g, p'.nodes[n]? = some g ∧ Describes w (Numbered p'.numbers) id g) ∧
      Questioned w v' id

namespace Advance

theorem numbered (h : Advance w p v p' v') {r : Ref} (hr : Numbered p.numbers r n) :
    Numbered p'.numbers r n := by
  cases r with
  | none => exact hr
  | some id => exact h.kept id n hr

/-- Questions alone make no node. -/
theorem of_asked (hsound : Sound p) (hv : v.Asked v') : Advance w p v p v' where
  asked := hv
  sound := hsound
  kept _ _ hid := hid
  old _ _ hid _ := hid
  size := Nat.le_refl _
  nodes _ _ := rfl
  described id n hid hn := absurd hn (Nat.not_le.mpr (hsound.range id n hid).2)

theorem trans (h : Advance w p v p' v') (h' : Advance w p' v' p'' v'') :
    Advance w p v p'' v'' where
  asked := h.asked.trans h'.asked
  sound := h'.sound
  kept id n hid := h'.kept id n (h.kept id n hid)
  old id n hid hn := h.old id n (h'.old id n hid (Nat.lt_of_lt_of_le hn h.size)) hn
  size := Nat.le_trans h.size h'.size
  nodes i hi := (h'.nodes i (Nat.lt_of_lt_of_le hi h.size)).trans (h.nodes i hi)
  described := by
    intro id n hid hn
    by_cases hlt : n < p'.nodes.size
    · obtain ⟨⟨g, hg, hdescribes⟩, hasked⟩ := h.described id n (h'.old id n hid hlt) hn
      exact ⟨⟨g, (h'.nodes n hlt).trans hg, hdescribes.mono fun _ _ => h'.numbered⟩,
        hasked.mono h'.asked⟩
    · exact h'.described id n hid (Nat.le_of_not_lt hlt)

end Advance

/-- Whenever the part of the traversal succeeds it advances and delivers what `post` says. -/
def Delivers (w : World κ) (x : Save (Run κ) α) (post : Progress → World κ → α → Prop) : Prop :=
  ∀ p v a p' v', Sound p → v.types.Regular → x p v = (.ok (a, p'), v') →
    Advance w p v p' v' ∧ post p' v' a

/-- What a part has delivered stays true when the traversal advances. -/
def Stable (w : World κ) (post : Progress → World κ → α → Prop) : Prop :=
  ∀ p v p' v' a, Advance w p v p' v' → post p v a → post p' v' a

variable {post : Progress → World κ → α → Prop} {post' : Progress → World κ → β → Prop}

namespace Delivers

theorem pure {a : α} (h : ∀ p v, post p v a) : Delivers w (pure a) post := by
  intro p v a' p' v' hsound hregular hrun
  cases hrun
  exact ⟨.of_asked hsound (.refl hregular), h p v⟩

theorem bind {x : Save (Run κ) α} {f : α → Save (Run κ) β} (hx : Delivers w x post)
    (hf : ∀ a, Delivers w (f a) fun p v b => post p v a → post' p v b) (hpost : Stable w post) :
    Delivers w (x >>= f) post' := by
  intro p v b p'' v'' hsound hregular hrun
  obtain ⟨a, p', v', hxrun, hfrun⟩ := state_bind_eq_ok.mp hrun
  obtain ⟨hadvance, ha⟩ := hx p v a p' v' hsound hregular hxrun
  obtain ⟨hadvance', hb⟩ := hf a p' v' b p'' v'' hadvance.sound hadvance.asked.later.regular hfrun
  exact ⟨hadvance.trans hadvance', hb (hpost p' v' p'' v'' a hadvance' ha)⟩

theorem imp {post' : Progress → World κ → α → Prop} {x : Save (Run κ) α} (hx : Delivers w x post)
    (h : ∀ p v a, post p v a → post' p v a) : Delivers w x post' := by
  intro p v a p' v' hsound hregular hrun
  obtain ⟨hadvance, ha⟩ := hx p v a p' v' hsound hregular hrun
  exact ⟨hadvance, h p' v' a ha⟩

/-- The parts for the elements of a list deliver one result each. -/
theorem mapM {f : α → Save (Run κ) β} {rel : Progress → World κ → α → β → Prop} {as : List α}
    (hf : ∀ a ∈ as, Delivers w (f a) fun p v b => rel p v a b)
    (hrel : ∀ a, Stable w fun p v b => rel p v a b) :
    Delivers w (as.mapM f) fun p v bs => List.Forall₂ (rel p v) as bs := by
  induction as with
  | nil => exact .pure fun _ _ => .nil
  | cons a as ih =>
      obtain ⟨ha, has⟩ := List.forall_mem_cons.mp hf
      rw [List.mapM_cons]
      refine bind ha (fun b => bind (ih has) (fun bs => .pure fun p v hbs hb => .cons hb hbs) ?_)
        (hrel a)
      intro p v p' v' bs hadvance hbs
      exact hbs.imp fun a b => hrel a p v p' v' b hadvance

end Delivers

/-! ## Parts of the traversal -/

theorem delivers_fallible (answer : Except Fault α) :
    Delivers w (Inquiry.ofFallible answer) fun _ _ a => answer = .ok a := by
  intro p v a p' v' hsound hregular hrun
  cases answer with
  | error fault => cases hrun
  | ok a =>
      cases hrun
      exact ⟨.of_asked hsound (.refl hregular), rfl⟩

theorem delivers_classes {cs : List ObjectClass} (hcs : ∀ c ∈ cs, c.Rightful) (id : ObjId) :
    Delivers w (Inquiry.ask (.classes id cs)) fun _ v _ => v.Answered id cs := by
  intro p v a p' v' hsound hregular hrun
  obtain ⟨_, _, hask, hdone⟩ := run_bind_eq_ok.mp hrun
  cases hdone
  obtain ⟨hasked, hanswered⟩ := Run.asked_of_askClasses hregular hcs hask
  exact ⟨.of_asked hsound hasked, hanswered⟩

theorem delivers_schemas :
    Delivers w (Inquiry.ask .schemas : Save (Run κ) Unit) fun _ v _ => v.Reflecting := by
  intro p v a p' v' hsound hregular hrun
  obtain ⟨_, _, hask, hdone⟩ := run_bind_eq_ok.mp hrun
  cases hdone
  obtain ⟨hasked, hboxes⟩ := Run.asked_of_useReflection hregular hask
  exact ⟨.of_asked hsound hasked, hboxes⟩

theorem rightful_of_plain : ∀ c ∈ Inquiry.plainClasses, c.Rightful := by
  have hbuiltin : ∀ c ∈ Inquiry.plainClasses, c ∈ ObjectClass.builtins := by decide
  exact fun c hc => ObjectClass.rightful_of_mem_builtins (hbuiltin c hc)

theorem rightful_of_travel : ∀ c ∈ Run.travelClasses, c.Rightful := by
  have hbuiltin : ∀ c ∈ Run.travelClasses, c ∈ ObjectClass.builtins := by decide
  exact fun c hc => ObjectClass.rightful_of_mem_builtins (hbuiltin c hc)

theorem delivers_travels (ids : List ObjId) :
    Delivers w (ids.forM fun id => Inquiry.ask (.classes id Run.travelClasses) :
      Save (Run κ) Unit) fun _ v _ => ∀ id ∈ ids, v.Answered id Run.travelClasses := by
  induction ids with
  | nil => exact .pure fun _ _ _ hid => nomatch hid
  | cons id ids ih =>
      refine .bind (delivers_classes rightful_of_travel id) (fun _ => ?_) ?_
      · exact ih.imp fun p v _ hids hid => List.forall_mem_cons.mpr ⟨hid, hids⟩
      · exact fun _ _ _ _ _ hadvance hid => hadvance.asked.answered hid

theorem delivers_attrs (id : ObjId) :
    Delivers w (Inquiry.attrs w id : Save (Run κ) (Except Error (List Attr)))
      fun _ v found => found = w.attrs id ∧ ∀ a ∈ w.shown id, ∀ x, a.value.object? = some x →
        v.Answered x Run.travelClasses := by
  refine .bind (delivers_travels _) (fun _ => .pure fun p v htravels => ⟨rfl, ?_⟩) ?_
  · intro a ha x hx
    exact htravels x (List.mem_filterMap.mpr ⟨a, ha, hx⟩)
  · exact fun _ _ _ _ _ hadvance hids id hid => hadvance.asked.answered (hids id hid)

/-- A reference is saved by saving its object. -/
theorem delivers_ref {number : ObjId → Save (Run κ) Nat}
    (hnumber : ∀ id, Delivers w (number id) fun p _ n => Numbered p.numbers (some id) n) (r : Ref) :
    Delivers w (ref number r) fun p _ n => Numbered p.numbers r n := by
  cases r with
  | none => exact .pure fun _ _ => rfl
  | some id => exact hnumber id

theorem stable_numbered (r : Ref) : Stable w fun p _ n => Numbered p.numbers r n :=
  fun _ _ _ _ _ hadvance hr => hadvance.numbered hr

/-- Saving that fails delivers nothing. -/
theorem delivers_fail (cause : Error) (post : Progress → World κ → α → Prop) :
    Delivers w (fail cause) post := by
  refine (delivers_fallible _).imp ?_
  intro _ _ _ hanswer
  cases hanswer

theorem delivers_attrText {number : ObjId → Save (Run κ) Nat}
    (hnumber : ∀ id, Delivers w (number id) fun p _ n => Numbered p.numbers (some id) n)
    (typeKey : String) (a : Attr) :
    Delivers w (attrText w number typeKey a) fun p _ s =>
      AttrText (Numbered p.numbers) a.value s := by
  unfold attrText
  split
  · rename_i tag id hvalue
    rw [hvalue]
    exact .bind (hnumber id) (fun n => .pure fun _ _ hn => .object hn) (stable_numbered (some id))
  all_goals rename_i hvalue
  · exact .pure fun _ _ => hvalue ▸ .null
  · exact .pure fun _ _ => hvalue ▸ .int _
  · exact .pure fun _ _ => hvalue ▸ .float _
  · exact .pure fun _ _ => hvalue ▸ .bool _
  · exact .pure fun _ _ => hvalue ▸ .text _
  · exact .pure fun _ _ => hvalue ▸ .dataType _
  · split
    · rename_i hdevice
      exact .pure fun _ _ => hvalue ▸ .device hdevice
    · exact delivers_fail _ _
  · exact delivers_fail _ _

theorem delivers_namedText {number : ObjId → Save (Run κ) Nat}
    (hnumber : ∀ id, Delivers w (number id) fun p _ n => Numbered p.numbers (some id) n)
    (typeKey : String) (a : Attr) :
    Delivers w (do return (a.key, ← attrText w number typeKey a)) fun p _ e =>
      NamedText (Numbered p.numbers) a e :=
  .bind (delivers_attrText hnumber typeKey a)
    (fun _ => .pure fun _ _ htext => ⟨rfl, htext⟩)
    (fun _ _ _ _ _ hadvance htext => htext.mono fun _ _ => hadvance.numbered)

theorem delivers_entryNumbers {number : ObjId → Save (Run κ) Nat}
    (hnumber : ∀ id, Delivers w (number id) fun p _ n => Numbered p.numbers (some id) n)
    (e : Ref × Ref) :
    Delivers w (do return [← ref number e.1, ← ref number e.2]) fun p _ pair =>
      EntryNumbers (Numbered p.numbers) e pair :=
  .bind (delivers_ref hnumber e.1)
    (fun k => .bind (delivers_ref hnumber e.2)
      (fun n => .pure fun _ _ hn hk => ⟨k, n, rfl, hk, hn⟩)
      (fun _ _ _ _ _ hadvance hn => hadvance.numbered hn))
    (stable_numbered e.1)

/-- The attributes of an object become the attributes of its node. -/
theorem delivers_shown {number : ObjId → Save (Run κ) Nat}
    (hnumber : ∀ id, Delivers w (number id) fun p _ n => Numbered p.numbers (some id) n)
    (id : ObjId) {after : Except Error (List Attr) → Save (Run κ) GraphNode}
    (hfail : ∀ cause, after (.error cause) = fail cause)
    (hshow : ∀ attrs, after (.ok attrs) = do
      let texts ← attrs.mapM fun a => do return (a.key, ← attrText w number (w.typeKey id) a)
      return { blank (w.typeKey id) with attrs := NameTable.sorted (NameTable.ofList texts) }) :
    Delivers w (do Inquiry.ask .schemas; after (← Inquiry.attrs w id)) fun p v g =>
      (∃ attrs texts, w.attrs id = .ok attrs ∧
        List.Forall₂ (NamedText (Numbered p.numbers)) attrs texts ∧
        g = { blank (w.typeKey id) with attrs := NameTable.sorted (NameTable.ofList texts) }) ∧
      v.Reflecting ∧ ∀ a ∈ w.shown id, ∀ x, a.value.object? = some x →
        v.Answered x Run.travelClasses := by
  refine .bind delivers_schemas (fun _ => .bind (delivers_attrs id) (fun found => ?_) ?_) ?_
  · cases found with
    | error cause => exact hfail cause ▸ delivers_fail _ _
    | ok attrs =>
        rw [hshow]
        refine .bind (.mapM (fun a _ => delivers_namedText hnumber _ a)
            fun _ _ _ _ _ _ hadvance ha => ha.mono fun _ _ => hadvance.numbered)
          (fun texts => .pure fun p v htexts => ?_)
          (fun _ _ _ _ _ hadvance htexts => htexts.imp fun _ _ ha =>
            ha.mono fun _ _ => hadvance.numbered)
        rintro ⟨hattrs, htravels⟩ hboxes
        exact ⟨⟨attrs, texts, hattrs.symm, htexts, rfl⟩, hboxes, htravels⟩
  · intro p v p' v' found hadvance hfound
    exact ⟨hfound.1, fun a ha x hx => hadvance.asked.answered (hfound.2 a ha x hx)⟩
  · exact fun _ _ _ _ _ hadvance hboxes => hadvance.asked.reflecting hboxes

/-- The node of an object describes it, if what it holds is numbered. -/
theorem delivers_node {number : ObjId → Save (Run κ) Nat}
    (hnumber : ∀ id, Delivers w (number id) fun p _ n => Numbered p.numbers (some id) n)
    (id : ObjId) :
    Delivers w (node w number id) fun p v g =>
      Describes w (Numbered p.numbers) id g ∧ Questioned w v id := by
  refine .bind (delivers_classes rightful_of_plain id) (fun _ => ?_)
    (fun _ _ _ _ _ hadvance hid => hadvance.asked.answered hid)
  have hstring : ∀ {v : World κ}, v.Answered id Inquiry.plainClasses → v.Answered id [.string] := by
    rintro v ⟨first, hfirst, -⟩
    exact ⟨first, hfirst, .inr trivial⟩
  unfold Describes Questioned
  split
  all_goals rename_i hcontent; simp only [hcontent, and_true]
  · exact .pure fun _ _ hid => ⟨rfl, hstring hid⟩
  · exact .pure fun _ _ hid => ⟨rfl, hstring hid⟩
  · rename_i elems
    exact .bind (.mapM (fun r _ => delivers_ref hnumber r) stable_numbered)
      (fun data => .pure fun _ _ hdata hid => ⟨⟨data, hdata, rfl⟩, hstring hid⟩)
      (fun _ _ _ _ _ hadvance hdata => hdata.imp fun _ _ hr => hadvance.numbered hr)
  · rename_i entries
    cases stringKeys? w entries with
    | some keys =>
        exact .bind (.mapM (fun e _ => delivers_ref hnumber e.2) fun e => stable_numbered e.2)
          (fun data => .pure fun _ _ hdata hid => ⟨⟨data, hdata, rfl⟩, hstring hid⟩)
          (fun _ _ _ _ _ hadvance hdata => hdata.imp fun _ _ hr => hadvance.numbered hr)
    | none =>
        exact .bind (.mapM (fun e _ => delivers_entryNumbers hnumber e)
            fun _ _ _ _ _ _ hadvance he => he.mono fun _ _ => hadvance.numbered)
          (fun pairs => .pure fun _ _ hpairs hid => ⟨⟨pairs, hpairs, rfl⟩, hstring hid⟩)
          (fun _ _ _ _ _ hadvance hpairs => hpairs.imp fun _ _ he =>
            he.mono fun _ _ => hadvance.numbered)
  · exact .bind (delivers_fallible _)
      (fun saved => .pure fun _ _ hsaved hid => ⟨⟨saved, hsaved, rfl⟩, hstring hid⟩)
      (fun _ _ _ _ _ _ hsaved => hsaved)
  · exact (delivers_shown hnumber id (fun _ => rfl) (fun _ => rfl)).imp
      fun _ _ _ h hid => ⟨h.1, hstring hid, h.2⟩

/-- A new object gets the next number before its node is there. -/
theorem Sound.push (hsound : Sound p) (hid : p.numbers.lookup id = none) :
    Sound ⟨(id, p.nodes.size) :: p.numbers, p.nodes.push (blank "")⟩ := by
  have hcases : ∀ x n, ((id, p.nodes.size) :: p.numbers).lookup x = some n →
      (x = id ∧ n = p.nodes.size) ∨ p.numbers.lookup x = some n := by
    intro x n hx
    rw [lookup_cons_eq] at hx
    split at hx
    · exact .inl ⟨‹_›, (Option.some.inj hx).symm⟩
    · exact .inr hx
  constructor
  case start =>
    rw [Array.size_push]
    exact Nat.succ_pos _
  case range =>
    intro x n hx
    rw [Array.size_push]
    rcases hcases x n hx with ⟨-, rfl⟩ | hold
    · exact ⟨hsound.start, Nat.lt_succ_self _⟩
    · have := hsound.range x n hold
      omega
  case filled =>
    intro n hpos hn
    rw [Array.size_push] at hn
    rcases Nat.lt_succ_iff_lt_or_eq.mp hn with hlt | rfl
    · obtain ⟨x, hx⟩ := hsound.filled n hpos hlt
      refine ⟨x, ?_⟩
      rw [lookup_cons_eq, if_neg fun heq => by simp [heq, hid] at hx]
      exact hx
    · exact ⟨id, by rw [lookup_cons_eq, if_pos rfl]⟩
  case injective =>
    intro x y n hx hy
    rcases hcases x n hx with ⟨hxid, hn⟩ | hxold
    · rcases hcases y n hy with ⟨hyid, -⟩ | hyold
      · exact hxid.trans hyid.symm
      · exact absurd (hn ▸ (hsound.range y n hyold).2) (Nat.lt_irrefl _)
    · rcases hcases y n hy with ⟨-, hn⟩ | hyold
      · exact absurd (hn ▸ (hsound.range x n hxold).2) (Nat.lt_irrefl _)
      · exact hsound.injective x y n hxold hyold

/-- When the node of a new object is there, it has been described with all that it holds. -/
theorem Advance.finish {p₁ : Progress} {v₁ : World κ} (hid : p.numbers.lookup id = none)
    (h : Advance w ⟨(id, p.nodes.size) :: p.numbers, p.nodes.push (blank "")⟩ v p₁ v₁)
    (hdescribes : Describes w (Numbered p₁.numbers) id g) (hasked : Questioned w v₁ id) :
    Advance w p v { p₁ with nodes := p₁.nodes.set! p.nodes.size g } v₁ := by
  have hsize : p.nodes.size + 1 ≤ p₁.nodes.size := by simpa using h.size
  have hnew : p₁.numbers.lookup id = some p.nodes.size :=
    h.kept id _ (by rw [lookup_cons_eq, if_pos rfl])
  have hnodes : ∀ i, i ≠ p.nodes.size → (p₁.nodes.set! p.nodes.size g)[i]? = p₁.nodes[i]? := by
    intro i hi
    simp [Ne.symm hi]
  constructor
  case asked => exact h.asked
  case sound =>
    exact ⟨by simpa using h.sound.start, by simpa using h.sound.range,
      by simpa using h.sound.filled, h.sound.injective⟩
  case kept =>
    intro x n hx
    refine h.kept x n ?_
    rw [lookup_cons_eq, if_neg (fun heq => by simp [heq, hid] at hx)]
    exact hx
  case old =>
    intro x n hx hn
    have hold := h.old x n hx (by simpa using Nat.lt_succ_of_lt hn)
    rw [lookup_cons_eq] at hold
    split at hold
    · cases hold
      exact absurd hn (Nat.lt_irrefl _)
    · exact hold
  case size =>
    simp only [Array.set!_eq_setIfInBounds, Array.size_setIfInBounds]
    omega
  case nodes =>
    intro i hi
    have hstay := h.nodes i (by simpa using Nat.lt_succ_of_lt hi)
    rw [hnodes i (Nat.ne_of_lt hi), hstay, Array.getElem?_push, if_neg (Nat.ne_of_lt hi)]
  case described =>
    intro x n hx hn
    rcases Nat.eq_or_lt_of_le hn with rfl | hlt
    · obtain rfl := h.sound.injective x id _ hx hnew
      refine ⟨⟨g, ?_, hdescribes⟩, hasked⟩
      simp [Nat.lt_of_succ_le hsize]
    · obtain ⟨⟨g', hg', hdescribes'⟩, hasked'⟩ := h.described x n hx (by simpa using Nat.succ_le_of_lt hlt)
      exact ⟨⟨g', (hnodes n (Nat.ne_of_gt hlt)).trans hg', hdescribes'⟩, hasked'⟩

/-- Saving an object numbers it and all that it holds. -/
theorem delivers_number (depth : Nat) (id : ObjId) :
    Delivers w (numberWithin w depth id) fun p _ n => Numbered p.numbers (some id) n := by
  induction depth generalizing id with
  | zero => exact (delivers_fallible _).imp fun _ _ _ hanswer => nomatch hanswer
  | succ depth ih =>
      intro p v n p' v' hsound hregular hrun
      obtain ⟨_, _, _, hget, hrun⟩ := state_bind_eq_ok.mp hrun
      cases hget
      cases hid : p.numbers.lookup id with
      | some m =>
          simp only [hid] at hrun
          cases hrun
          exact ⟨.of_asked hsound (.refl hregular), hid⟩
      | none =>
          simp only [hid] at hrun
          obtain ⟨_, _, _, hget, hrun⟩ := state_bind_eq_ok.mp hrun
          cases hget
          obtain ⟨_, _, _, hstart, hrun⟩ := state_bind_eq_ok.mp hrun
          cases hstart
          obtain ⟨g, p₁, v₁, hnode, hrun⟩ := state_bind_eq_ok.mp hrun
          obtain ⟨_, _, _, hset, hrun⟩ := state_bind_eq_ok.mp hrun
          obtain ⟨hadvance, hdescribes, hasked⟩ :=
            delivers_node ih id _ v g p₁ v₁ (hsound.push hid) hregular hnode
          cases hset
          cases hrun
          exact ⟨hadvance.finish hid hdescribes hasked,
            hadvance.kept id _ (by rw [lookup_cons_eq, if_pos rfl])⟩

/-- What a saved graph says of the objects that it has numbered, when saving has left the world
`v` behind. -/
structure Saved (w v : World κ) (r : Ref) (graph : Graph) (numbers : List (ObjId × Nat)) :
    Prop where
  asked : w.Asked v
  sound : Sound ⟨numbers, graph.nodes.toArray⟩
  root : Numbered numbers r graph.root
  nothing : graph.nodes[0]? = some (blank "")
  attrs : graph.attrs = [("tvm_version", Graph.version)]
  described : ∀ id n, numbers.lookup id = some n →
    (∃ g, graph.nodes[n]? = some g ∧ Describes w (Numbered numbers) id g) ∧ Questioned w v id

/-- Every node of a saved graph describes the object that has its number. -/
theorem saved_of_save {r : Ref} {text : String} (hregular : w.types.Regular)
    (hrun : Reflection.save r w = (.ok text, v)) :
    ∃ graph numbers, text = graph.toText ∧ (graphOf w r : Run κ Graph) w = (.ok graph, v) ∧
      Saved w v r graph numbers := by
  obtain ⟨_, _, hget, hrun⟩ := run_bind_eq_ok.mp hrun
  cases hget
  obtain ⟨graph, _, hgraph, hdone⟩ := run_bind_eq_ok.mp hrun
  cases hdone
  have hgraphOf := hgraph
  obtain ⟨⟨root, p⟩, _, hnumber, hdone⟩ := run_bind_eq_ok.mp hgraph
  cases hdone
  have hsound : Sound ⟨[], #[blank ""]⟩ :=
    ⟨Nat.one_pos, fun _ _ h => (nomatch h), fun n hpos hn => absurd hn (Nat.not_lt.mpr hpos),
      fun _ _ _ h => (nomatch h)⟩
  obtain ⟨hadvance, hroot⟩ :=
    delivers_ref (delivers_number _) r _ w root p v hsound hregular hnumber
  refine ⟨_, p.numbers, rfl, hgraphOf, hadvance.asked, by simpa using hadvance.sound, hroot,
    by simpa using hadvance.nodes 0 Nat.one_pos, rfl, fun id n hid => ?_⟩
  simpa using hadvance.described id n hid (hadvance.sound.range id n hid).1

end Saving

end ObjectRuntime

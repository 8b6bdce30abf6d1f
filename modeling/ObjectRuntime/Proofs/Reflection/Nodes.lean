import ObjectRuntime.Proofs.Reflection.Decoding
import ObjectRuntime.Proofs.Reflection.Spelling
import ObjectRuntime.Proofs.Tensor.Restoring
import ObjectRuntime.Proofs.Text.Base64
import Mathlib.Data.List.Induction
set_option autoImplicit false

/-!
# Copies made of nodes

`Loading.Spells` says what is needed of a node to make a copy of the object with its number.  If all
nodes of a graph spell the objects with their numbers, and no object holds itself, then what is made
of a node is a copy of the object with its number (`makes_resolve`).
-/

namespace ObjectRuntime

namespace Loading

open Build (Ready Onward Makes NewCopy Copied)
open Heap (Grown Backed)
open Relation (ReflTransGen TransGen)
open Saving (Numbered AttrText EntryNumber EntryNumbers)
open World (CopyOf RefRel ValueCopy EntryCopy)

variable {κ : Type} {w : World κ} {numbers : List (ObjId × Nat)} {num : Ref → Nat → Prop}
  {id : ObjId} {g : GraphNode} {s s' : BuildState} {h h' : Heap κ}

/-! ## What nodes spell -/

/-- The texts stand for the values of the fields, each with the name of its field. -/
inductive FieldTexts (w : World κ) (num : Ref → Nat → Prop) :
    List Field → List Value → List (String × String) → Prop
  | nil : FieldTexts w num [] [] []
  | cons {f : Field} {x : Value} {text : String} {fields : List Field} {values : List Value}
      {texts : List (String × String)} (typed : w.HasType f.type x) (spelled : AttrText num x text)
      (back : ∀ y, x = .float y → y.ReadsBack)
      (travels : ∀ y, x.object? = some y → w.Answered y Run.travelClasses)
      (rest : FieldTexts w num fields values texts) :
      FieldTexts w num (f :: fields) (x :: values) ((f.key, text) :: texts)

/-- The node says what an object is made of, and what has to be asked about that has been asked. -/
inductive Spells (w : World κ) (num : Ref → Nat → Prop) (id : ObjId) (g : GraphNode) : Prop
  | text (s : String) (cls : w.OfClass id .string) (content : w.payload? id = some (.text s))
      (key : g.typeKey = ObjectClass.string.key) (text : g.text = some s)
  | shape (dims : List Int) (cls : w.OfClass id .shapeTuple)
      (content : w.payload? id = some (.shape dims)) (fits : ∀ n ∈ dims, IntKind.i64.Fits n)
      (key : g.typeKey = ObjectClass.shapeTuple.key)
      (text : g.text = some (Saving.showShape dims))
  | array (elems : List Ref) (cls : w.OfClass id .array)
      (content : w.payload? id = some (.array elems)) (key : g.typeKey = ObjectClass.array.key)
      (data : List.Forall₂ num elems g.data)
  | strings (entries : List (Ref × Ref)) (cls : w.OfClass id .map)
      (content : w.payload? id = some (.map entries))
      (distinct : entries.Pairwise fun e e' => w.sameKey e.1 e'.1 = false)
      (key : g.typeKey = ObjectClass.map.key) (keys : Saving.stringKeys? w entries = some g.keys)
      (known : ∀ e ∈ entries, ∀ a, e.1 = some a → w.OfClass a .string)
      (data : List.Forall₂ (EntryNumber num) entries g.data)
  | map (entries : List (Ref × Ref)) (pairs : List (List Nat)) (cls : w.OfClass id .map)
      (content : w.payload? id = some (.map entries))
      (distinct : entries.Pairwise fun e e' => w.sameKey e.1 e'.1 = false)
      (key : g.typeKey = ObjectClass.map.key) (keys : g.keys = [])
      (asked : ∀ e ∈ entries, ∀ a, e.1 = some a → w.Answered a [.string])
      (data : g.data = pairs.flatten) (spelled : List.Forall₂ (EntryNumbers num) entries pairs)
  | tensor (t : Tensor) (data : Bytes) (cls : w.OfClass id .tensor)
      (content : w.payload? id = some (.tensor t)) (whole : w.IsWhole id t)
      (bytes : w.tensorBytes id t = .ok data) (key : g.typeKey = ObjectClass.tensor.key)
      (base64 : g.base64 = some (Base64.encode (Blob.hostRecord t.dtype t.shape data).encode))
  | node (schema : Schema) (values : List Value) (texts : List (String × String))
      (cls : w.OfClass id schema.cls) (reflected : w.schemaOf? id = some schema)
      (own : schema.cls.key ∉ Inquiry.plainClasses.map ObjectClass.key)
      (distinct : (schema.visible.map Field.key).Nodup)
      (content : w.payload? id = some (schema.payload values)) (boxes : w.Reflecting)
      (key : g.typeKey = schema.cls.key)
      (attrs : g.attrs = NameTable.sorted (NameTable.ofList texts))
      (spelled : FieldTexts w num schema.visible values texts)

/-! ## References -/

/-- The reference is a copy, is held, and is what has been made of the node with the number of the
other. -/
structure Resolved (w : World κ) (numbers : List (ObjId × Nat)) (s : BuildState) (h : Heap κ)
    (r r' : Ref) : Prop where
  copy : RefRel (CopyOf w h) r r'
  held : ∀ b, r' = some b → b ∈ s.held
  finished : ∀ a, r = some a → ∃ n, numbers.lookup a = some n ∧ s.finished.lookup n = some r'

/-- What a reference is resolved to stands for what it refers to. -/
theorem Resolved.copied {r r' : Ref} (hr : Resolved w numbers s h r r') :
    RefRel (Copied w numbers s h) r r' := by
  cases r with
  | none =>
      cases r' with
      | none => trivial
      | some b => exact hr.copy.elim
  | some a =>
      cases r' with
      | none => exact hr.copy.elim
      | some b => exact ⟨hr.copy, .inl (hr.finished a rfl)⟩

theorem Resolved.onward {r r' : Ref} (hr : Resolved w numbers s h r r')
    (honward : Onward s h s' h') : Resolved w numbers s' h' r r' where
  copy := hr.copy.mono fun _ _ _ _ hcopy => hcopy.mono honward.grown
  held b hb := honward.held b (hr.held b hb)
  finished a ha := by
    obtain ⟨n, hn, hdone⟩ := hr.finished a ha
    exact ⟨n, hn, honward.finished n r' hdone⟩

/-- References to different objects are resolved to different ones. -/
theorem Resolved.injective {r r' c : Ref} (hready : Ready w numbers s h)
    (hinjective : ∀ a a' n, numbers.lookup a = some n → numbers.lookup a' = some n → a = a')
    (hr : Resolved w numbers s h r c) (hr' : Resolved w numbers s h r' c) : r = r' := by
  cases r with
  | none =>
      cases r' with
      | none => rfl
      | some a' =>
          cases c with
          | none => exact hr'.copy.elim
          | some b => exact hr.copy.elim
  | some a =>
      obtain ⟨n, hn, hdone⟩ := hr.finished a rfl
      cases c with
      | none => exact hr.copy.elim
      | some b =>
          cases r' with
          | none => exact hr'.copy.elim
          | some a' =>
              obtain ⟨n', hn', hdone'⟩ := hr'.finished a' rfl
              obtain rfl := hready.distinct n n' b hdone hdone'
              rw [hinjective a a' n hn hn']

/-- What is held by an object can be resolved while the object is made. -/
def Resolves (w : World κ) (numbers : List (ObjId × Nat)) (resolve : Nat → Build κ Ref) (id : ObjId)
    (path : List Nat) : Prop :=
  ∀ s h r n, Ready w numbers s h → s.path = path → Numbered numbers r n →
    (∀ a, r = some a → w.Refers id a) →
      Makes w numbers (resolve n) s h fun s h r' => Resolved w numbers s h r r'

variable {resolve : Nat → Build κ Ref} {path : List Nat}

/-! ## Objects without attributes -/

/-- A new string with the text of another is a copy of it. -/
theorem makes_string {text : String} (hready : Ready w numbers s h) (hclass : w.OfClass id .string)
    (hcontent : w.payload? id = some (.text text)) :
    Makes w numbers (string text) s h (NewCopy w numbers id) :=
  Build.makes_make hready hclass (.text text hcontent) fun _ hx => nomatch hx

theorem required_some (index : Nat) (field text : String) :
    (required index field (some text) : Build κ String) = pure text := rfl

section

variable {index : Nat} (hready : Ready w numbers s h)
include hready

theorem makes_object_text {text : String} (hclass : w.OfClass id .string)
    (hcontent : w.payload? id = some (.text text)) (hkey : g.typeKey = ObjectClass.string.key)
    (htext : g.text = some text) :
    Makes w numbers (object resolve index g) s h (NewCopy w numbers id) := by
  rw [object, if_pos hkey, htext, required_some, pure_bind]
  exact makes_string hready hclass hcontent

theorem makes_object_shape {dims : List Int} (hclass : w.OfClass id .shapeTuple)
    (hcontent : w.payload? id = some (.shape dims)) (hfits : ∀ n ∈ dims, IntKind.i64.Fits n)
    (hkey : g.typeKey = ObjectClass.shapeTuple.key)
    (htext : g.text = some (Saving.showShape dims)) :
    Makes w numbers (object resolve index g) s h (NewCopy w numbers id) := by
  rw [object, if_neg (by rw [hkey]; decide), if_pos hkey, htext, required_some, pure_bind,
    parseShape?_showShape hfits]
  exact Build.makes_make hready hclass (.shape dims hcontent) fun _ hx => nomatch hx

theorem makes_object_tensor {t : Tensor} {data : Bytes} (hclass : w.OfClass id .tensor)
    (hcontent : w.payload? id = some (.tensor t)) (hwhole : w.IsWhole id t)
    (hbytes : w.tensorBytes id t = .ok data) (hkey : g.typeKey = ObjectClass.tensor.key)
    (hbase64 : g.base64 = some (Base64.encode (Blob.hostRecord t.dtype t.shape data).encode)) :
    Makes w numbers (object resolve index g) s h (NewCopy w numbers id) := by
  obtain ⟨data', hdata', hsize, hroom⟩ := hwhole.memory
  obtain rfl := Except.ok.inj (hbytes.symm.trans hdata')
  rw [object, if_neg (by rw [hkey]; decide), if_neg (by rw [hkey]; decide),
    if_neg (by rw [hkey]; decide), if_neg (by rw [hkey]; decide), if_pos hkey, hbase64,
    required_some, pure_bind, Base64.decode?_encode]
  have hload := Blob.loadTensor_encode (w := w) (h := h) hclass hwhole.rank hwhole.dims hsize hroom
  refine Build.makes_holding hready ?_ (.tensor t Device.host.toRaw.unit data hcontent hbytes hsize)
    fun _ hx => nomatch hx
  exact run_map_of_ok hload

/-- The elements of an array are resolved one by one. -/
theorem makes_object_array {elems : List Ref} (hresolve : Resolves w numbers resolve id path)
    (hpath : s.path = path) (hclass : w.OfClass id .array)
    (hcontent : w.payload? id = some (.array elems)) (hkey : g.typeKey = ObjectClass.array.key)
    (hdata : List.Forall₂ (Numbered numbers) elems g.data) :
    Makes w numbers (object resolve index g) s h (NewCopy w numbers id) := by
  rw [object, if_neg (by rw [hkey]; decide), if_neg (by rw [hkey]; decide), if_pos hkey]
  have hall := Makes.mapM hdata hready
    (fun r hr n hrn s' h' hready' honward => hresolve s' h' r n hready' (honward.path.trans hpath)
      hrn fun a ha => World.refers_of_element hcontent (ha ▸ hr))
    fun r r' s h s' h' honward hr => hr.onward honward
  refine hall.bind fun elems' s' h' hready' _ helems => ?_
  refine Build.makes_make hready' hclass
    (.array elems elems' hcontent (helems.imp fun _ _ hr => hr.copied)) fun b hb => ?_
  obtain ⟨r, -, hr⟩ := exists_mem_of_forall₂ helems (List.reduceOption_mem_iff.mp hb)
  exact hr.held b rfl

end

/-! ## Maps -/

/-- The entries are copies with keys as distinct as those of the map. -/
structure EntryResolved (w : World κ) (numbers : List (ObjId × Nat)) (s : BuildState) (h : Heap κ)
    (e e' : Ref × Ref) : Prop where
  copy : EntryCopy (Copied w numbers s h) e e'
  held : ∀ b, e'.1 = some b ∨ e'.2 = some b → b ∈ s.held

theorem EntryResolved.onward {e e' : Ref × Ref} (he : EntryResolved w numbers s h e e')
    (honward : Onward s h s' h') : EntryResolved w numbers s' h' e e' where
  copy := ⟨he.copy.1.mono fun _ _ _ _ hcopied => hcopied.onward honward,
    he.copy.2.mono fun _ _ _ _ hcopied => hcopied.onward honward⟩
  held b hb := honward.held b (he.held b hb)

/-- Entries whose keys are all different are collected as they are. -/
theorem insertEntry_of_distinct {same : Ref → Ref → Bool} {entries : List (Ref × Ref)} {k v : Ref}
    (hk : ∀ e ∈ entries, same e.1 k = false) :
    insertEntry same k v entries = entries ++ [(k, v)] := by
  induction entries with
  | nil => rfl
  | cons e entries ih =>
      obtain ⟨he, hrest⟩ := List.forall_mem_cons.mp hk
      rw [insertEntry, he, ih hrest]
      rfl

theorem foldl_insertEntry {same : Ref → Ref → Bool} {entries : List (Ref × Ref)}
    (hdistinct : entries.Pairwise fun e e' => same e.1 e'.1 = false) :
    entries.foldl (fun es (k, v) => insertEntry same k v es) [] = entries := by
  induction entries using List.reverseRecOn with
  | nil => rfl
  | append_singleton entries e ih =>
      obtain ⟨hentries, -, hlast⟩ := List.pairwise_append.mp hdistinct
      rw [List.foldl_append, ih hentries]
      exact insertEntry_of_distinct fun e' he' => hlast e' he' e List.mem_cons_self

/-- Copies of strings have the same text, and copies of other objects none. -/
theorem text_copy {k k' : Ref} (hk : RefRel (CopyOf w h) k k') :
    k'.bind (w.withHeap h).text? = k.bind w.text? := by
  cases k with
  | none =>
      cases k' with
      | none => rfl
      | some b => exact hk.elim
  | some a =>
      cases k' with
      | none => exact hk.elim
      | some b =>
          have hcopies := World.copies_of_copying (w.sameClasses_withHeap h)
            (fun a b hab => World.CopyOf.step hab) (show CopyOf w h a b from hk)
          exact hcopies.looks.text.symm

/-- Copies of different keys are different, if copies of objects that are no strings are. -/
theorem sameKey_copy {k k' c c' : Ref} (hk : RefRel (CopyOf w h) k c)
    (hk' : RefRel (CopyOf w h) k' c')
    (hne : k.bind w.text? = none ∨ k'.bind w.text? = none → c = c' → k = k')
    (hkeys : w.sameKey k k' = false) : (w.withHeap h).sameKey c c' = false := by
  unfold World.sameKey at *
  rw [text_copy hk, text_copy hk']
  cases htext : k.bind w.text? with
  | none =>
      simp only [htext] at hkeys ⊢
      exact beq_eq_false_iff_ne.mpr fun heq =>
        beq_eq_false_iff_ne.mp hkeys (hne (.inl htext) heq)
  | some t =>
      cases htext' : k'.bind w.text? with
      | none =>
          simp only [htext, htext'] at hkeys ⊢
          exact beq_eq_false_iff_ne.mpr fun heq =>
            beq_eq_false_iff_ne.mp hkeys (hne (.inr htext') heq)
      | some t' => simpa only [htext, htext'] using hkeys

/-- A map of copied entries is a copy, if their keys are distinct. -/
theorem makes_map {entries entries' : List (Ref × Ref)} (hready : Ready w numbers s h)
    (hclass : w.OfClass id .map) (hcontent : w.payload? id = some (.map entries))
    (hentries : List.Forall₂ (EntryResolved w numbers s h) entries entries')
    (hdistinct : entries'.Pairwise fun e e' => (w.withHeap h).sameKey e.1 e'.1 = false) :
    Makes w numbers (map entries') s h (NewCopy w numbers id) := by
  have hmake : Makes w numbers (Build.make .map (.map entries')) s h (NewCopy w numbers id) := by
    refine Build.makes_make hready hclass
      (.map entries entries' hcontent (hentries.imp fun _ _ he => he.copy)) fun b hb => ?_
    obtain ⟨e', he', hb⟩ := List.mem_flatMap.mp hb
    obtain ⟨e, -, he⟩ := exists_mem_of_forall₂ hentries he'
    refine he.held b ?_
    simpa [eq_comm] using hb
  have hget : (get : Run κ (World κ)) (w.withHeap h) = (.ok (w.withHeap h), w.withHeap h) := rfl
  rw [map, Build.world]
  refine .looking hget ?_
  rw [foldl_insertEntry hdistinct]
  exact hmake

/-- A key is asked how it is compared, and the entry is complete. -/
theorem makes_askKey {k c c' : Ref} {post : BuildState → Heap κ → Ref × Ref → Prop}
    (hready : Ready w numbers s h) (hk : RefRel (CopyOf w h) k c)
    (hasked : ∀ a, k = some a → w.Answered a [.string]) (hpost : post s h (c, c')) :
    Makes w numbers (do
      Build.ofRun (Run.askKey c)
      return (c, c')) s h post := by
  have hask : Run.askKey c (w.withHeap h) = (.ok (), w.withHeap h) := by
    refine Run.askKey_of_answered fun b hb => ?_
    subst hb
    cases k with
    | none => exact hk.elim
    | some a => exact (show CopyOf w h a b from hk).answered (hasked a rfl)
  exact .looking hask (.pure hready hpost)

/-- An entry of a map with strings as keys. -/
theorem makes_entry_string {e : Ref × Ref} {key : String} {n : Nat} (hready : Ready w numbers s h)
    (hresolve : Resolves w numbers resolve id path) (hpath : s.path = path)
    (hkey : e.1.bind w.text? = some key) (hclass : ∀ a, e.1 = some a → w.OfClass a .string)
    (hn : Numbered numbers e.2 n) (hheld : ∀ a, e.2 = some a → w.Refers id a) :
    Makes w numbers (entry (string key) (resolve n)) s h fun s h e' => EntryResolved w numbers s h e e' := by
  obtain ⟨k, v⟩ := e
  obtain ⟨a, rfl, htext⟩ := Option.bind_eq_some_iff.mp hkey
  have hcontent := World.payload?_of_text? htext
  refine (makes_string hready (hclass a rfl) hcontent).bind ?_
  rintro _ s₁ h₁ hready₁ honward₁ ⟨b, rfl, hcopy, -, hb, -⟩
  refine (hresolve s₁ h₁ v n hready₁ (honward₁.path.trans hpath) hn hheld).bind ?_
  intro v' s₂ h₂ hready₂ honward₂ hv
  have hcopy₂ : CopyOf w h₂ a b := hcopy.mono honward₂.grown
  have hstands : Copied w numbers s₂ h₂ a b := ⟨hcopy₂, .inr (.inl ⟨key, hcontent⟩)⟩
  refine makes_askKey (k := some a) hready₂ hcopy₂ (fun a' ha' => ?_) ⟨⟨hstands, hv.copied⟩, ?_⟩
  · cases ha'
    exact World.answered_of_ofClass (hclass a rfl)
  · rintro x (hx | hx)
    · cases hx
      exact honward₂.held b hb
    · exact hv.held x hx

/-- Key and value of the entry have been resolved. -/
def EntryParts (w : World κ) (numbers : List (ObjId × Nat)) (s : BuildState) (h : Heap κ)
    (e e' : Ref × Ref) : Prop :=
  Resolved w numbers s h e.1 e'.1 ∧ Resolved w numbers s h e.2 e'.2

theorem EntryParts.resolved {e e' : Ref × Ref} (he : EntryParts w numbers s h e e') :
    EntryResolved w numbers s h e e' where
  copy := ⟨he.1.copied, he.2.copied⟩
  held b hb := hb.elim (he.1.held b) (he.2.held b)

/-- An entry of a map with any keys. -/
theorem makes_entry_pair {e : Ref × Ref} {k n : Nat} (hready : Ready w numbers s h)
    (hresolve : Resolves w numbers resolve id path) (hpath : s.path = path)
    (hasked : ∀ a, e.1 = some a → w.Answered a [.string]) (hk : Numbered numbers e.1 k)
    (hn : Numbered numbers e.2 n) (hheld : ∀ a, e.1 = some a ∨ e.2 = some a → w.Refers id a) :
    Makes w numbers (entry (resolve k) (resolve n)) s h fun s h e' =>
      EntryParts w numbers s h e e' := by
  refine (hresolve s h e.1 k hready hpath hk fun a ha => hheld a (.inl ha)).bind ?_
  intro k' s₁ h₁ hready₁ honward₁ hk'
  refine (hresolve s₁ h₁ e.2 n hready₁ (honward₁.path.trans hpath) hn
    fun a ha => hheld a (.inr ha)).bind ?_
  intro v' s₂ h₂ hready₂ honward₂ hv'
  have hk₂ := hk'.onward honward₂
  have hentry : EntryParts w numbers s₂ h₂ e (k', v') := ⟨hk₂, hv'⟩
  exact makes_askKey hready₂ hk₂.copy hasked hentry

/-- What is held in an entry is held by the map. -/
theorem refers_of_mem_entries {entries : List (Ref × Ref)} {e : Ref × Ref} {a : ObjId}
    (hcontent : w.payload? id = some (.map entries)) (he : e ∈ entries)
    (ha : e.1 = some a ∨ e.2 = some a) : w.Refers id a := by
  refine ⟨_, hcontent, List.mem_flatMap.mpr ⟨e, he, ?_⟩⟩
  rcases ha with ha | ha <;> simp [ha]

/-- Texts of keys stand beside the keys. -/
theorem forall₂_stringKeys {entries : List (Ref × Ref)} {keys : List String}
    (hkeys : Saving.stringKeys? w entries = some keys) :
    List.Forall₂ (fun e key => e.1.bind w.text? = some key) entries keys := by
  induction entries generalizing keys with
  | nil =>
      cases hkeys
      exact .nil
  | cons e entries ih =>
      rw [Saving.stringKeys?, List.mapM_cons] at hkeys
      obtain ⟨key, hkey, hkeys⟩ := Option.bind_eq_some_iff.mp hkeys
      obtain ⟨rest, hrest, hdone⟩ := Option.bind_eq_some_iff.mp hkeys
      cases hdone
      exact .cons hkey (ih hrest)

/-- The text of a key and a number stand for the key and the value of an entry. -/
def EntryTexts (w : World κ) (num : Ref → Nat → Prop) (e : Ref × Ref) (p : String × Nat) : Prop :=
  e.1.bind w.text? = some p.1 ∧ num e.2 p.2

theorem forall₂_entryTexts {entries : List (Ref × Ref)} {keys : List String} {data : List Nat}
    (hkeys : List.Forall₂ (fun e key => e.1.bind w.text? = some key) entries keys)
    (hdata : List.Forall₂ (EntryNumber num) entries data) :
    List.Forall₂ (EntryTexts w num) entries (keys.zip data) := by
  induction hkeys generalizing data with
  | nil => exact .nil
  | cons hkey _ ih =>
      cases hdata with
      | cons hn hdata => exact .cons ⟨hkey, hn⟩ (ih hdata)

/-- Numbers two by two stand for the keys and values of the entries. -/
def EntryPair (num : Ref → Nat → Prop) (e : Ref × Ref) (p : Nat × Nat) : Prop :=
  num e.1 p.1 ∧ num e.2 p.2

theorem forall₂_pairs {entries : List (Ref × Ref)} {numbered : List (List Nat)}
    (hpairs : List.Forall₂ (EntryNumbers num) entries numbered) :
    numbered.flatten.length % 2 = 0 ∧
      List.Forall₂ (EntryPair num) entries (pairs numbered.flatten) := by
  induction hpairs with
  | nil => exact ⟨rfl, .nil⟩
  | cons hpair _ ih =>
      obtain ⟨k, v, rfl, hk, hv⟩ := hpair
      refine ⟨?_, .cons ⟨hk, hv⟩ ih.2⟩
      have := ih.1
      simp only [List.flatten_cons, List.length_append, List.length_cons, List.length_nil]
      omega

section

variable {index : Nat} {entries : List (Ref × Ref)} (hready : Ready w numbers s h)
  (hresolve : Resolves w numbers resolve id path) (hpath : s.path = path)
  (hclass : w.OfClass id .map) (hcontent : w.payload? id = some (.map entries))
  (hdistinct : entries.Pairwise fun e e' => w.sameKey e.1 e'.1 = false)
  (hkey : g.typeKey = ObjectClass.map.key)
include hready hresolve hpath hclass hcontent hdistinct hkey

/-- A map whose keys are strings is made of their texts. -/
theorem makes_object_strings (hkeys : Saving.stringKeys? w entries = some g.keys)
    (hknown : ∀ e ∈ entries, ∀ a, e.1 = some a → w.OfClass a .string)
    (hdata : List.Forall₂ (EntryNumber (Numbered numbers)) entries g.data) :
    Makes w numbers (object resolve index g) s h (NewCopy w numbers id) := by
  have htexts := forall₂_stringKeys hkeys
  have hkeyed : ∀ e ∈ entries, e.1.bind w.text? ≠ none := by
    intro e he hnone
    obtain ⟨key, -, hkey⟩ := exists_mem_of_forall₂ htexts.flip he
    rw [hnone] at hkey
    cases hkey
  have hlengths : g.keys.length = g.data.length := htexts.length_eq.symm.trans hdata.length_eq
  have hall := Makes.mapM (f := fun p => entry (string p.1) (resolve p.2))
    (forall₂_entryTexts htexts hdata) hready
    (fun e he p hp s' h' hready' honward => makes_entry_string hready' hresolve
      (honward.path.trans hpath) hp.1 (hknown e he) hp.2
      fun a ha => refers_of_mem_entries hcontent he (.inr ha))
    fun e e' s h s' h' honward he => he.onward honward
  have hmap := hall.bind fun entries' s' h' hready' _ hentries => by
    refine makes_map hready' hclass hcontent hentries
      (pairwise_of_forall₂ hentries hdistinct fun e he e' he' c c' hc hc' hne => ?_)
    refine sameKey_copy (hc.copy.1.mono fun _ _ _ _ => And.left) (hc'.copy.1.mono fun _ _ _ _ => And.left)
      (fun hnone => ?_) hne
    exact (hnone.elim (hkeyed e he) (hkeyed e' he')).elim
  rw [object, if_neg (by rw [hkey]; decide), if_neg (by rw [hkey]; decide),
    if_neg (by rw [hkey]; decide), if_pos hkey]
  cases hempty : g.keys with
  | nil =>
      have hnone : g.data = [] := List.length_eq_zero_iff.mp (by rw [← hlengths, hempty]; rfl)
      rw [hempty, hnone] at hmap
      rw [hnone]
      exact hmap
  | cons key keys =>
      rw [← hempty, if_neg (not_not.mpr hlengths)]
      simp only [hempty, List.isEmpty_cons, Bool.not_false, if_true]
      rw [← hempty]
      exact hmap

/-- A map is made of its keys and values. -/
theorem makes_object_map {numbered : List (List Nat)}
    (hinjective : ∀ a a' n, numbers.lookup a = some n → numbers.lookup a' = some n → a = a')
    (hkeys : g.keys = [])
    (hasked : ∀ e ∈ entries, ∀ a, e.1 = some a → w.Answered a [.string])
    (hdata : g.data = numbered.flatten)
    (hpairs : List.Forall₂ (EntryNumbers (Numbered numbers)) entries numbered) :
    Makes w numbers (object resolve index g) s h (NewCopy w numbers id) := by
  obtain ⟨heven, hnumbers⟩ := forall₂_pairs hpairs
  have hall := Makes.mapM (f := fun p => entry (resolve p.1) (resolve p.2)) hnumbers hready
    (fun e he p hp s' h' hready' honward => makes_entry_pair hready' hresolve
      (honward.path.trans hpath) (hasked e he) hp.1 hp.2
      fun a ha => refers_of_mem_entries hcontent he ha)
    fun e e' s h s' h' honward he => ⟨he.1.onward honward, he.2.onward honward⟩
  have hmap := hall.bind fun entries' s' h' hready' _ hentries => by
    refine makes_map hready' hclass hcontent (hentries.imp fun _ _ he => he.resolved)
      (pairwise_of_forall₂ hentries hdistinct fun e _ e' _ c c' hc hc' hne => ?_)
    refine sameKey_copy hc.1.copy hc'.1.copy (fun _ heq => ?_) hne
    exact Resolved.injective hready' hinjective hc.1 (heq ▸ hc'.1)
  rw [object, if_neg (by rw [hkey]; decide), if_neg (by rw [hkey]; decide),
    if_neg (by rw [hkey]; decide), if_pos hkey, hkeys, hdata, if_neg (not_not.mpr heven)]
  exact hmap

end

end Loading

end ObjectRuntime

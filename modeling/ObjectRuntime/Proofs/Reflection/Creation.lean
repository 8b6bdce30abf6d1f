import ObjectRuntime.Proofs.Object.Advancing
import ObjectRuntime.Proofs.Reflection.Asking
import ObjectRuntime.Proofs.Reflection.Making
set_option autoImplicit false

/-!
# Making objects of attributes

An object of a reflected class is made of exactly the attributes of the class: every field is read
from the last value that is given under its key, in the order of the fields, and nothing may be left
over.  `Creation.Converts` says that all fields can be read, `Creation.Fails` what comes first if
not, and `createObject` does what these say (`createObject_iff`).
-/

namespace ObjectRuntime

variable {κ : Type} {w w₀ v : World κ} {schema : Schema} {index : Nat} {typeKey : String}

/-- The names of the attributes of a class. -/
def Schema.attrNames (s : Schema) : List String := s.visible.map Field.key

/-- The class has been looked up and is known to reflection by the schema, whose attributes have
different names. -/
structure World.Reflects (w : World κ) (schema : Schema) (index : Nat) : Prop where
  known : w.types.classIndex? schema.cls = some index
  shown : w.schemaAt? index = some schema
  distinct : schema.attrNames.Nodup

/-- An error in the conversion of an attribute names the attribute; a panic passes. -/
def Fault.ofAttribute (typeKey key : String) : Fault → Fault
  | .error cause => .error (.attrConversion typeKey key cause)
  | fault => fault

namespace Creation

/-! ## What is made of attributes -/

/-- The value that counts for an attribute: the last one given under its key. -/
def last (given : List (String × Value)) (key : String) : Option Value := given.reverse.lookup key

/-- Every field has been given a value that converts to its type.  The conversions follow one
another in the order of the fields. -/
inductive Converts (given : String → Option Value) :
    List Field → World κ → List Value → World κ → Prop
  | nil {w : World κ} : Converts given [] w [] w
  | cons {f : Field} {fields : List Field} {a : Value} {x : f.type.Carrier} {values : List Value}
      {w w₁ v : World κ} (found : given f.key = some a)
      (converted : Run.decode f.type a w = (.ok x, w₁)) (rest : Converts given fields w₁ values v) :
      Converts given (f :: fields) w (f.type.fieldValue x :: values) v

/-- A field has been given no value, or one that does not convert, and all before it could be
read. -/
inductive Stops (typeKey : String) (given : String → Option Value) :
    List Field → World κ → Fault → Prop
  | missing {f : Field} {fields : List Field} {w : World κ} (absent : given f.key = none) :
      Stops typeKey given (f :: fields) w (.error (.attrMissing typeKey f.key))
  | conversion {f : Field} {fields : List Field} {a : Value} {fault : Fault} {w v : World κ}
      (found : given f.key = some a) (refused : Run.decode f.type a w = (.error fault, v)) :
      Stops typeKey given (f :: fields) w (fault.ofAttribute typeKey f.key)
  | later {f : Field} {fields : List Field} {a : Value} {x : f.type.Carrier} {fault : Fault}
      {w w₁ : World κ} (found : given f.key = some a)
      (converted : Run.decode f.type a w = (.ok x, w₁))
      (rest : Stops typeKey given fields w₁ fault) : Stops typeKey given (f :: fields) w fault

/-- Why no object is made: a field cannot be read, or all can and an attribute is left over, of which
the least is named. -/
inductive Fails (typeKey : String) (given : List (String × Value)) (fields : List Field)
    (w : World κ) : Fault → Prop
  | field {fault : Fault} (stops : Stops typeKey (last given) fields w fault) :
      Fails typeKey given fields w fault
  | unknown {values : List Value} {v : World κ} {key : String}
      (converts : Converts (last given) fields w values v) (extra : key ∈ given.map Prod.fst)
      (foreign : key ∉ fields.map Field.key)
      (least : ∀ key' ∈ given.map Prod.fst, key' ∉ fields.map Field.key → key ≤ key') :
      Fails typeKey given fields w (.error (.attrUnknown typeKey key))

variable {given : String → Option Value} {fields : List Field} {values : List Value}
  {fault : Fault} {rest : List (String × Value)} {s s' : BuildState}

/-- Either all fields can be read or one of them is the first that cannot. -/
theorem converts_or_stops (typeKey : String) (given : String → Option Value) (fields : List Field)
    (w : World κ) :
    (∃ values v, Converts given fields w values v) ∨ ∃ fault, Stops typeKey given fields w fault := by
  induction fields generalizing w with
  | nil => exact .inl ⟨[], w, .nil⟩
  | cons f fields ih =>
      cases hfound : given f.key with
      | none => exact .inr ⟨_, .missing hfound⟩
      | some a =>
          rcases hdecode : Run.decode f.type a w with ⟨fault | x, w₁⟩
          · exact .inr ⟨_, .conversion hfound hdecode⟩
          · rcases ih w₁ with ⟨values, v, hrest⟩ | ⟨fault, hrest⟩
            · exact .inl ⟨_, v, .cons hfound hdecode hrest⟩
            · exact .inr ⟨fault, .later hfound hdecode hrest⟩

/-- Conversions only look classes up and make objects. -/
theorem Converts.advanced (h : Converts given fields w values v) :
    w.Advanced (fun _ => True) v := by
  have hall : ∀ t : ValueType, t.Within fun _ => True := by
    have href : ∀ r : RefType, r.Within fun _ => True := fun r => by
      induction r with
      | named => trivial
      | array _ ih => exact ih
      | map _ _ ihKey ihValue => exact ⟨ihKey, ihValue⟩
    intro t
    induction t with
    | ref r => exact href r
    | option _ ih => exact ih
    | variant _ _ iha ihb => exact ⟨iha, ihb⟩
    | _ => trivial
  induction h with
  | nil => exact .refl _ _
  | @cons f _ a x _ w w₁ _ _ converted _ ih =>
      have hstep := Run.advances_decode ⟨fun _ _ => trivial, trivial⟩ (hall f.type) a w
      rw [converted] at hstep
      exact hstep.trans ih

/-- A field whose value has been read holds what the value converts to. -/
theorem Converts.exists_of_mem {f : Field} (h : Converts given fields w values v)
    (hf : f ∈ fields) :
    ∃ (a : Value) (x : f.type.Carrier) (w₁ w₂ : World κ), given f.key = some a ∧
      Run.decode f.type a w₁ = (.ok x, w₂) ∧ (f, f.type.fieldValue x) ∈ fields.zip values := by
  induction h with
  | nil => cases hf
  | cons found converted _ ih =>
      rcases List.mem_cons.mp hf with rfl | hf
      · exact ⟨_, _, _, _, found, converted, List.mem_cons_self⟩
      · obtain ⟨a, x, w₁, w₂, hgiven, hrun, hmem⟩ := ih hf
        exact ⟨a, x, w₁, w₂, hgiven, hrun, List.mem_cons_of_mem _ hmem⟩

theorem Converts.length_eq (h : Converts given fields w values v) :
    fields.length = values.length := by
  induction h with
  | nil => rfl
  | cons _ _ _ ih => rw [List.length_cons, List.length_cons, ih]

/-! ## Reading the fields -/

/-- What is left of a table when the values of fields have been taken out of it. -/
def leftover (fields : List Field) (rest : List (String × Value)) : List (String × Value) :=
  fields.foldl (fun rest f => NameTable.erase f.key rest) rest

theorem lookup_leftover (fields : List Field) (rest : List (String × Value)) (key : String) :
    (leftover fields rest).lookup key =
      if key ∈ fields.map Field.key then none else rest.lookup key := by
  induction fields generalizing rest with
  | nil => rfl
  | cons f fields ih =>
      rw [leftover, List.foldl_cons, ← leftover, ih, NameTable.lookup_erase, List.map_cons]
      by_cases hhead : key = f.key
      · simp [hhead]
      · simp [hhead]

/-- What comes of the values of all fields: what is left over is an error. -/
def finish (typeKey : String) (rest : List (String × Value)) (values : List Value) :
    Except Fault (List Value) :=
  match NameTable.sortedNames rest with
  | key :: _ => .error (.error (.attrUnknown typeKey key))
  | [] => .ok values

theorem finish_map (typeKey : String) (rest : List (String × Value)) (values : List Value)
    (f : List Value → List Value) :
    (finish typeKey rest values).map f = finish typeKey rest (f values) := by
  unfold finish
  split <;> rfl

end Creation

namespace Build

variable {α β : Type} {s s' : BuildState} {w' : World κ}

/-- The answer of an operation is worked on, whether or not it is a fault. -/
theorem bind_pure_of_run {x : Build κ α} {answer : Except Fault α} (f : α → β)
    (hx : x s w = ((answer, s'), w')) :
    (x >>= fun a => pure (f a)) s w = ((answer.map f, s'), w') := by
  cases answer with
  | ok a => exact bind_of_ok hx
  | error fault => exact bind_of_error hx

/-- The fault of an attribute is passed on under its name. -/
theorem blame_of_error {body : Build κ α} {fault : Fault} (typeKey key : String)
    (hbody : body s w = ((.error fault, s'), w')) :
    blame typeKey key body s w = ((.error (fault.ofAttribute typeKey key), s'), w') := by
  cases fault <;> simp only [blame, hbody, Fault.ofAttribute]

theorem fieldOf_of_ok {t : ValueType} {a : Value} {x : t.Carrier}
    (hdecode : Run.decode t a w = (.ok x, w')) :
    fieldOf t a s w = ((.ok (t.fieldValue x), { s with held := t.references x ++ s.held }), w') :=
  taking_of_ok hdecode

theorem fieldOf_of_error {t : ValueType} {a : Value} {fault : Fault}
    (hdecode : Run.decode t a w = (.error fault, w')) :
    fieldOf t a s w = ((.error fault, s), w') :=
  bind_of_error (ofRun_of_error hdecode)

end Build

namespace Creation

open Build (bind_of_error bind_of_ok bind_pure_of_run blame_of_error fieldOf_of_error fieldOf_of_ok
  fieldsOf)

variable {given : String → Option Value} {fields : List Field} {values : List Value}
  {fault : Fault} {rest : List (String × Value)} {s s' : BuildState}

/-- The table without the value of the first field still has the values of the others. -/
theorem lookup_erase_rest {f : Field} (hdistinct : ((f :: fields).map Field.key).Nodup)
    (hrest : ∀ g ∈ f :: fields, rest.lookup g.key = given g.key) {g : Field} (hg : g ∈ fields) :
    (NameTable.erase f.key rest).lookup g.key = given g.key := by
  rw [NameTable.lookup_erase, if_neg, hrest g (List.mem_cons_of_mem _ hg)]
  intro heq
  rw [List.map_cons, List.nodup_cons] at hdistinct
  exact hdistinct.1 (heq ▸ List.mem_map_of_mem hg)

/-- If all fields can be read they are read, and what is left over decides. -/
theorem fieldsOf_of_converts (h : Converts given fields w values v)
    (hdistinct : (fields.map Field.key).Nodup)
    (hrest : ∀ f ∈ fields, rest.lookup f.key = given f.key) (typeKey : String) (s : BuildState) :
    ∃ s', fieldsOf typeKey Build.fieldOf fields rest s w =
      ((finish typeKey (leftover fields rest) values, s'), v) := by
  induction h generalizing rest s with
  | @nil w =>
      refine ⟨s, ?_⟩
      simp only [fieldsOf, finish, leftover, List.foldl_nil]
      cases NameTable.sortedNames rest <;> rfl
  | @cons f fields a x values w w₁ v found converted _ ih =>
      obtain ⟨s', hrun⟩ := ih (List.nodup_cons.mp hdistinct).2
        (fun g hg => lookup_erase_rest hdistinct hrest hg) _
      refine ⟨s', ?_⟩
      rw [fieldsOf, hrest f List.mem_cons_self, found]
      simp only
      rw [bind_of_ok (Loading.blame_of_ok (fieldOf_of_ok converted)),
        bind_pure_of_run _ hrun, finish_map]
      rfl

/-- The first field that cannot be read is the fault of the whole. -/
theorem fieldsOf_of_stops (h : Stops typeKey given fields w fault)
    (hdistinct : (fields.map Field.key).Nodup)
    (hrest : ∀ f ∈ fields, rest.lookup f.key = given f.key) (s : BuildState) :
    ∃ s' v, fieldsOf typeKey Build.fieldOf fields rest s w = ((.error fault, s'), v) := by
  induction h generalizing rest s with
  | @missing f fields w absent =>
      refine ⟨s, w, ?_⟩
      rw [fieldsOf, hrest f List.mem_cons_self, absent]
      rfl
  | @conversion f fields a fault w v found refused =>
      refine ⟨s, v, ?_⟩
      rw [fieldsOf, hrest f List.mem_cons_self, found]
      simp only
      exact bind_of_error (blame_of_error _ _ (fieldOf_of_error refused))
  | @later f fields a x fault w w₁ found converted _ ih =>
      obtain ⟨s', v, hrun⟩ := ih (List.nodup_cons.mp hdistinct).2
        (fun g hg => lookup_erase_rest hdistinct hrest hg) _
      refine ⟨s', v, ?_⟩
      rw [fieldsOf, hrest f List.mem_cons_self, found]
      simp only
      rw [bind_of_ok (Loading.blame_of_ok (fieldOf_of_ok converted))]
      exact bind_of_error hrun

/-! ## What is left over -/

/-- A key is given exactly if a value counts for it. -/
theorem isSome_last {attrs : List (String × Value)} {key : String} :
    (last attrs key).isSome ↔ key ∈ attrs.map Prod.fst := by
  rw [last, ← NameTable.mem_sortedNames_iff, NameTable.sortedNames,
    (List.mergeSort_perm _ _).mem_iff, List.map_reverse, List.mem_reverse]

theorem mem_leftover {attrs : List (String × Value)} {key : String} :
    key ∈ NameTable.sortedNames (leftover fields (NameTable.ofList attrs)) ↔
      key ∈ attrs.map Prod.fst ∧ key ∉ fields.map Field.key := by
  rw [NameTable.mem_sortedNames_iff, lookup_leftover, ← isSome_last, last, NameTable.lookup_ofList]
  split <;> simp [*]

theorem nodup_leftover (fields : List Field) (h : (rest.map Prod.fst).Nodup) :
    ((leftover fields rest).map Prod.fst).Nodup := by
  induction fields generalizing rest with
  | nil => exact h
  | cons f fields ih => exact ih (NameTable.nodup_erase h)

/-- Nothing is left over if no attributes are given but those of the fields. -/
theorem finish_of_exact {attrs : List (String × Value)} (typeKey : String) (values : List Value)
    (hexact : ∀ key ∈ attrs.map Prod.fst, key ∈ fields.map Field.key) :
    finish typeKey (leftover fields (NameTable.ofList attrs)) values = .ok values := by
  unfold finish
  split
  · rename_i key tail hnames
    obtain ⟨hgiven, hforeign⟩ := mem_leftover.mp (hnames ▸ List.mem_cons_self)
    exact absurd (hexact key hgiven) hforeign
  · rfl

/-- The least attribute that is left over is the fault of the whole. -/
theorem finish_of_least {attrs : List (String × Value)} {key : String} (typeKey : String)
    (values : List Value) (hgiven : key ∈ attrs.map Prod.fst) (hforeign : key ∉ fields.map Field.key)
    (hleast : ∀ key' ∈ attrs.map Prod.fst, key' ∉ fields.map Field.key → key ≤ key') :
    finish typeKey (leftover fields (NameTable.ofList attrs)) values =
      .error (.error (.attrUnknown typeKey key)) := by
  have hkey := mem_leftover.mpr ⟨hgiven, hforeign⟩
  have hsorted := NameTable.pairwise_sortedNames
    (nodup_leftover fields (NameTable.nodup_ofList attrs))
  unfold finish
  split
  · rename_i first tail hnames
    obtain ⟨hgiven', hforeign'⟩ := mem_leftover.mp (hnames ▸ List.mem_cons_self)
    rw [hnames] at hkey hsorted
    rcases List.mem_cons.mp hkey with rfl | htail
    · rfl
    · have hlt := List.rel_of_pairwise_cons hsorted htail
      exact absurd hlt (String.not_lt.mpr (hleast first hgiven' hforeign'))
  · rename_i hnames
    rw [hnames] at hkey
    cases hkey

/-- If an attribute is left over there is a least one. -/
theorem exists_least {attrs : List (String × Value)}
    (hextra : ¬ ∀ key ∈ attrs.map Prod.fst, key ∈ fields.map Field.key) :
    ∃ key ∈ attrs.map Prod.fst, key ∉ fields.map Field.key ∧
      ∀ key' ∈ attrs.map Prod.fst, key' ∉ fields.map Field.key → key ≤ key' := by
  have hsorted := NameTable.pairwise_sortedNames
    (nodup_leftover fields (NameTable.nodup_ofList attrs))
  cases hnames : NameTable.sortedNames (leftover fields (NameTable.ofList attrs)) with
  | nil =>
      refine absurd (fun key hkey => ?_) hextra
      by_contra hforeign
      have hmem := mem_leftover.mpr ⟨hkey, hforeign⟩
      rw [hnames] at hmem
      cases hmem
  | cons key tail =>
      obtain ⟨hgiven, hforeign⟩ := mem_leftover.mp (hnames ▸ List.mem_cons_self)
      refine ⟨key, hgiven, hforeign, fun key' hgiven' hforeign' => ?_⟩
      have hmem := mem_leftover.mpr ⟨hgiven', hforeign'⟩
      rw [hnames] at hsorted hmem
      rcases List.mem_cons.mp hmem with rfl | htail
      · exact String.le_refl _
      · exact String.not_lt.mp fun hlt =>
          String.lt_irrefl key ((List.rel_of_pairwise_cons hsorted htail).trans hlt)

/-- Either all fields can be read and nothing is left over, or no object is made. -/
theorem converts_or_fails (typeKey : String) (attrs : List (String × Value)) (fields : List Field)
    (w : World κ) :
    ((∀ key ∈ attrs.map Prod.fst, key ∈ fields.map Field.key) ∧
      ∃ values v, Converts (last attrs) fields w values v) ∨
    ∃ fault, Fails typeKey attrs fields w fault := by
  rcases converts_or_stops typeKey (last attrs) fields w with ⟨values, v, hconverts⟩ | ⟨fault, h⟩
  · by_cases hexact : ∀ key ∈ attrs.map Prod.fst, key ∈ fields.map Field.key
    · exact .inl ⟨hexact, values, v, hconverts⟩
    · obtain ⟨key, hgiven, hforeign, hleast⟩ := exists_least hexact
      exact .inr ⟨_, .unknown hconverts hgiven hforeign hleast⟩
  · exact .inr ⟨fault, .field h⟩

/-- Every field that has been read was given. -/
theorem Converts.given_of_mem {attrs : List (String × Value)}
    (h : Converts (last attrs) fields w values v) {key : String} (hkey : key ∈ fields.map Field.key) :
    key ∈ attrs.map Prod.fst := by
  induction h with
  | nil => cases hkey
  | cons found _ _ ih =>
      rcases List.mem_cons.mp hkey with rfl | hkey
      · exact isSome_last.mp (Option.isSome_of_eq_some found)
      · exact ih hkey

end Creation

/-! ## Making the object -/

namespace Build

variable {s : BuildState}

/-- An object of a class that has been looked up is made at the end of the heap. -/
theorem make_of_classIndex? {c : ObjectClass} (hknown : v.types.classIndex? c = some index)
    (payload : Payload κ) :
    make c payload s v = ((.ok (some ⟨v.heap.cells.size⟩),
      { s with held := ⟨v.heap.cells.size⟩ :: s.held }),
      v.withHeap ((v.heap.retainAll payload.references).alloc index payload).1) := by
  have hretain : Run.modifyHeap (·.retainAll payload.references) v =
      (.ok (), v.withHeap (v.heap.retainAll payload.references)) := rfl
  have hcreate := Run.create_of_classIndex? (h := v.heap.retainAll payload.references) hknown payload
  rw [Heap.size_retainAll] at hcreate
  refine taking_of_ok ?_
  rw [run_bind_of_ok hretain, run_bind_of_ok hcreate]
  rfl

/-- The fields of an object of a reflected class are read and the object is made of them. -/
theorem object_of_shown (hindex : w.types.indexOf typeKey = .ok index)
    (huse : Run.useReflection w = (.ok (), w₀)) (hshown : w₀.schemaAt? index = some schema)
    (given : List (String × Value)) :
    object typeKey fieldOf given s w =
      (fieldsOf typeKey fieldOf schema.visible given >>= fun values =>
        make schema.cls (schema.payload values)) s w₀ := by
  have hquery : Run.query (·.types.indexOf typeKey) w = (.ok index, w) := Loading.query_ok hindex
  have hworld : (world : Build κ (World κ)) s w₀ = ((.ok w₀, s), w₀) := rfl
  rw [object, bind_of_ok (ofRun_of_ok hquery), bind_of_ok (ofRun_of_ok huse), bind_of_ok hworld,
    hshown]

end Build

namespace Creation

section

variable (hindex : w.types.indexOf typeKey = .ok index)
  (huse : Run.useReflection w = (.ok (), w₀)) (hshown : w₀.schemaAt? index = some schema)
  (hdistinct : schema.attrNames.Nodup)
include hindex huse hshown hdistinct

/-- Attributes of which all fields can be read, and no others, make an object. -/
theorem createObject_of_converts {values : List Value} {given : List (String × Value)}
    (hknown : w₀.types.classIndex? schema.cls = some index)
    (hconverts : Converts (last given) schema.visible w₀ values v)
    (hexact : ∀ key ∈ given.map Prod.fst, key ∈ schema.attrNames) :
    ∃ held : List ObjId, createObject typeKey given w = (.ok (some ⟨v.heap.cells.size⟩),
      v.withHeap (held.foldl Heap.release
        (((v.heap.retainAll (schema.payload values : Payload κ).references).alloc index
          (schema.payload values)).1.retainAll [⟨v.heap.cells.size⟩]))) := by
  obtain ⟨s', hfields⟩ := fieldsOf_of_converts hconverts hdistinct
    (fun f _ => NameTable.lookup_ofList given f.key) typeKey ⟨[], [], []⟩
  rw [finish_of_exact typeKey values hexact] at hfields
  have hknown' := hconverts.advanced.types.classIndex? hknown
  refine ⟨⟨v.heap.cells.size⟩ :: s'.held, ?_⟩
  rw [createObject, Build.run, Build.object_of_shown hindex huse hshown, Build.bind_of_ok hfields,
    Build.make_of_classIndex? hknown']
  rfl

/-- Otherwise none is made. -/
theorem createObject_of_fails {fault : Fault} {given : List (String × Value)}
    (hfails : Fails typeKey given schema.visible w₀ fault) :
    ∃ v, createObject typeKey given w = (.error fault, v) := by
  have hrest : ∀ f ∈ schema.visible,
      (NameTable.ofList given).lookup f.key = last given f.key :=
    fun f _ => NameTable.lookup_ofList given f.key
  obtain ⟨s', v, hfields⟩ : ∃ s' v, Build.fieldsOf typeKey Build.fieldOf schema.visible
      (NameTable.ofList given) ⟨[], [], []⟩ w₀ = ((.error fault, s'), v) := by
    cases hfails with
    | field stops => exact fieldsOf_of_stops stops hdistinct hrest _
    | @unknown values v key converts extra foreign least =>
        obtain ⟨s', hfields⟩ := fieldsOf_of_converts converts hdistinct hrest typeKey ⟨[], [], []⟩
        rw [finish_of_least typeKey values extra foreign least] at hfields
        exact ⟨s', v, hfields⟩
  refine ⟨v.withHeap (s'.held.foldl Heap.release v.heap), ?_⟩
  rw [createObject, Build.run, Build.object_of_shown hindex huse hshown,
    Build.bind_of_error hfields]
  rfl

/-- An object is made exactly if the attributes are those of the class and their values convert to the
types of the fields; otherwise the first fault is answered. -/
theorem createObject_iff (hknown : w₀.types.classIndex? schema.cls = some index)
    (given : List (String × Value)) :
    ((∃ b v, createObject typeKey given w = (.ok (some b), v)) ↔
      (∀ key, key ∈ given.map Prod.fst ↔ key ∈ schema.attrNames) ∧
        ∃ values v, Converts (last given) schema.visible w₀ values v) ∧
    ∀ fault, (∃ v, createObject typeKey given w = (.error fault, v)) ↔
      Fails typeKey given schema.visible w₀ fault := by
  have hmakes (hexact : ∀ key ∈ given.map Prod.fst, key ∈ schema.attrNames) {values v}
      (hconverts : Converts (last given) schema.visible w₀ values v) :
      ∃ b v, createObject typeKey given w = (.ok (some b), v) := by
    obtain ⟨held, hrun⟩ :=
      createObject_of_converts hindex huse hshown hdistinct hknown hconverts hexact
    exact ⟨_, _, hrun⟩
  have hrefuses {fault} (hfails : Fails typeKey given schema.visible w₀ fault) :=
    createObject_of_fails hindex huse hshown hdistinct hfails
  refine ⟨⟨?_, ?_⟩, fun fault => ⟨?_, hrefuses⟩⟩
  · rintro ⟨b, v, hrun⟩
    rcases converts_or_fails typeKey given schema.visible w₀ with
      ⟨hexact, values, v', hconverts⟩ | ⟨fault, hfails⟩
    · exact ⟨fun key => ⟨hexact key, hconverts.given_of_mem⟩, values, v', hconverts⟩
    · obtain ⟨v', hrun'⟩ := hrefuses hfails
      rw [hrun'] at hrun
      cases hrun
  · rintro ⟨hexact, values, v, hconverts⟩
    exact hmakes (fun key hkey => (hexact key).mp hkey) hconverts
  · rintro ⟨v, hrun⟩
    rcases converts_or_fails typeKey given schema.visible w₀ with
      ⟨hexact, values, v', hconverts⟩ | ⟨fault', hfails⟩
    · obtain ⟨b, v', hrun'⟩ := hmakes hexact hconverts
      rw [hrun'] at hrun
      cases hrun
    · obtain ⟨v', hrun'⟩ := hrefuses hfails
      rw [hrun'] at hrun
      cases hrun
      exact hfails

end

end Creation

end ObjectRuntime

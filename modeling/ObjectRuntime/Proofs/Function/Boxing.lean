import ObjectRuntime.Proofs.Function.Passing
import ObjectRuntime.Proofs.TypeTable.Standing
set_option autoImplicit false

/-!
# Numbers with and without a box

A number may come as it is or as a handle to a box with it.  Reading it as a plain number makes no
difference between the two.  Reading it as a reference to a box does: a handle is passed on as it is
or not at all, and a plain number is put into a new box, a wider one if need be.
-/

namespace ObjectRuntime

open TypeTable (Later Orderly Regular)
open World (Asked)

variable {κ : Type} {w w₁ : World κ} {id : ObjId} {c : ObjectClass} {content : BoxContent}
  {payload : Payload κ} {v : Value}

theorem BoxContent.cls_mem_travelClasses (content : BoxContent) :
    content.cls ∈ Run.travelClasses := by
  have hboxes : ∀ c ∈ [ObjectClass.boxInt, .boxFloat, .boxBool], c ∈ Run.travelClasses := by decide
  exact hboxes _ content.cls_mem

/-! ## Kinds of numbers -/

/-- The kinds of plain numbers for which there are boxes. -/
inductive Primitive
  | int
  | float
  | bool
  deriving DecidableEq, Repr

namespace Primitive

/-- The type of the plain numbers. -/
def type : Primitive → ValueType
  | .int => .int .i64
  | .float => .f64
  | .bool => .bool

/-- The class of the boxes. -/
def box : Primitive → ObjectClass
  | .int => .boxInt
  | .float => .boxFloat
  | .bool => .boxBool

/-- A number as the content of a box of its kind. -/
def boxed : (p : Primitive) → p.type.Carrier → BoxContent
  | .int, n => .int n
  | .float, x => .float x
  | .bool, b => .bool b

/-- What a number is when it is read as one of the kind, if it can be. -/
def read? : (p : Primitive) → BoxContent → Option p.type.Carrier
  | .int, .int n => some n
  | .int, .bool b => some (MachineInt.wrap .i64 (World.boolNumber b))
  | .int, .float _ => none
  | .float, .float x => some x
  | .float, .int n => some (Double.ofInt n.val)
  | .float, .bool b => some (Double.ofInt (World.boolNumber b))
  | .bool, .bool b => some b
  | .bool, .int n => some (decide (n.val ≠ 0))
  | .bool, .float _ => none

/-- A plain number is put into a box of the kind: into one of its own kind or of the next wider
one. -/
def takes : Primitive → BoxContent → Bool
  | .int, .int _ | .int, .bool _ => true
  | .float, .float _ | .float, .int _ => true
  | .bool, .bool _ => true
  | _, _ => false

theorem box_mem (p : Primitive) : p.box ∈ Run.travelClasses := by cases p <;> decide

theorem box_isFinal (p : Primitive) : p.box.isFinal = true := by cases p <;> rfl

theorem box_key_ne (p : Primitive) : p.box.key ≠ ObjectClass.rootKey := by cases p <;> decide

/-- A number of the kind is read as it is. -/
theorem read?_of_cls {p : Primitive} (h : content.cls = p.box) :
    ∃ x, p.read? content = some x ∧ p.boxed x = content := by
  have hkey : content.cls.key = p.box.key := congrArg ObjectClass.key h
  cases p <;> cases content
  all_goals first
    | exact ⟨_, rfl, rfl⟩
    | exact absurd hkey (by simp only [BoxContent.cls, box]; decide)

/-- What is put into a box of the kind is what is read as a number of the kind. -/
theorem read?_of_takes {p : Primitive} (h : p.takes content = true) :
    ∃ x, p.read? content = some x := by
  cases p <;> cases content <;> first | exact ⟨_, rfl⟩ | cases h

/-- The first box that is made of a number and is of the kind. -/
theorem find?_boxings (p : Primitive) (content : BoxContent) :
    (World.boxings content.value : List (ObjectClass × Payload κ)).find?
        (fun e => decide (e.1.key = p.box.key)) =
      if p.takes content then
        (p.read? content).map fun x => (p.box, (p.boxed x).payload)
      else none := by
  cases p <;> cases content <;> rfl

end Primitive

namespace World

/-- The value is a number, or a handle to a box with it. -/
inductive Brings (w : World κ) (content : BoxContent) : Value → Prop
  | plain : Brings w content content.value
  | handle (tag : ObjectTag) (id : ObjId) (box : w.ObjectAt id content.cls content.payload) :
      Brings w content (.object tag id)

/-- A new box is made of the value, or it is a handle to a box of the kind. -/
def Boxable (p : Primitive) (content : BoxContent) (v : Value) : Prop :=
  if v.object?.isSome then content.cls = p.box else p.takes content = true

/-- Looking classes up makes no object another. -/
theorem ObjectAt.asked (h : w.ObjectAt id c payload) (hasked : w.Asked w₁) :
    w₁.ObjectAt id c payload := by
  obtain ⟨o, ho, -⟩ := h.alive
  exact h.of_same ho (hasked.heap ▸ ho) rfl rfl fun hc => hasked.later.classIndex? hc

/-- Where the built-in classes stand side by side a box travels as the number in it. -/
theorem ObjectAt.classify_of_below (h : w.ObjectAt id content.cls content.payload)
    (hregular : w.types.Regular) (hbelow : w.types.BelowRoot content.cls) (moved : Bool) :
    w.classify id moved = content.value := by
  rcases classify_of_box hregular h moved with hmodule | hvalue
  · obtain ⟨first, hfirst⟩ := Run.classIndex?_of_isInstance hmodule
    have hroot : first ≠ TypeTable.rootIndex := by
      rintro rfl
      exact absurd (hregular.key_injective hfirst (show w.types.classIndex? .root = _ from rfl))
        (by decide)
    have hne : w.typeIndex id ≠ first := by
      rintro hsame
      have hkeys := hregular.key_injective h.cls (hsame ▸ hfirst)
      exact absurd hkeys (by cases content <;> (dsimp only [BoxContent.cls]; decide))
    obtain ⟨e, he, -⟩ := hregular.typeAt?_classIndex h.cls
    have hapart : w.types.derivedFrom (w.typeIndex id) first = false :=
      hregular.layout.not_derivedFrom_of_child he
        (hbelow _ e (hregular.index?_classIndex h.cls) he) hne hroot
    rw [isInstance_of_classIndex? hfirst] at hmodule
    simp only [TypeTable.isInstance, if_neg hroot] at hmodule
    split_ifs at hmodule with hfinal hslot
    · cases hfinal
    · -- modules have no slots for children
      exact absurd (Nat.le_antisymm (Nat.sub_eq_zero_iff_le.mp (Nat.le_zero.mp hslot.2)) hslot.1) hne
    · rw [hapart] at hmodule
      cases hmodule
  · exact hvalue

/-! ## Plain numbers -/

/-- The value read as a number of a kind. -/
def decodePrimitive (w : World κ) : (p : Primitive) → Value → Except Error p.type.Carrier
  | .int, v => w.decodeInt .i64 v
  | .float, v => w.decodeDouble v
  | .bool, v => w.decodeBool v

/-- A number is read in the same way everywhere, as is a handle that travels as this number. -/
theorem decodePrimitive_eq (w w₁ : World κ) (p : Primitive)
    (hv : w.unboxed v = content.value) :
    w.decodePrimitive p v = w₁.decodePrimitive p content.value := by
  have hplain : w₁.unboxed content.value = content.value := by
    simp only [unboxed, content.object?_value]
  cases p <;> simp only [decodePrimitive, decodeInt, decodeDouble, decodeBool, hv, hplain] <;>
    cases content <;> rfl

/-- A number is read as what it is. -/
theorem decodePrimitive_value (w : World κ) (p : Primitive) (content : BoxContent) :
    (∃ x, p.read? content = some x ∧ w.decodePrimitive p content.value = .ok x) ∨
      p.read? content = none ∧ ∃ cause, w.decodePrimitive p content.value = .error cause := by
  cases p <;> cases content with
  | float x =>
      first
      | exact .inl ⟨_, rfl, rfl⟩
      | exact .inr ⟨rfl, _, rfl⟩
  | bool b => cases b <;> exact .inl ⟨_, rfl, rfl⟩
  | int n =>
      refine .inl ⟨_, rfl, ?_⟩
      first
      | rfl
      | simp only [decodePrimitive, decodeInt, unboxed, BoxContent.value, Value.object?]
        rw [MachineInt.ofInt?_of_le (k := .i64) n.fits.2, MachineInt.wrap_val]
        rfl

end World

namespace Run

theorem decode_primitive (p : Primitive) (v : Value) :
    (decode p.type v : Run κ p.type.Carrier) =
      queryAsking travelClasses v (·.decodePrimitive p v) := by
  cases p <;> rfl

/-! ## Asking in an orderly table -/

theorem builtin_travelClasses : ∀ c ∈ travelClasses, c ∈ ObjectClass.builtins := by decide

/-- A class that tells how objects travel is found. -/
theorem touch_of_orderly (h : w.types.Orderly travelClasses) (hc : c ∈ travelClasses) :
    ∃ first w₁, touch c w = (.ok first, w₁) ∧ w.Asked w₁ ∧ w₁.types.Orderly travelClasses ∧
      w₁.types.classIndex? c = some first := by
  obtain ⟨first, hfirst, horderly⟩ := h.touch builtin_travelClasses hc
  have htouch : touch c w = (.ok first, { w with types := (w.types.touch c).2 }) := by
    simp only [touch, hfirst]
  obtain ⟨hasked, hindex⟩ := asked_of_touch h.serves.regular
    (ObjectClass.rightful_of_mem_builtins (builtin_travelClasses c hc)) htouch
  exact ⟨first, _, htouch, hasked, horderly, hindex⟩

/-- Whoever is asked for these classes answers. -/
theorem askClasses_of_orderly (h : w.types.Orderly travelClasses) (id : ObjId) :
    ∃ w₁, askClasses id travelClasses w = (.ok (), w₁) ∧ w.Asked w₁ := by
  have hright : ∀ c ∈ travelClasses, c.Rightful :=
    fun c hc => ObjectClass.rightful_of_mem_builtins (builtin_travelClasses c hc)
  obtain ⟨w₁, hask, -⟩ := askClasses_of_serves hright h.serves (fun _ hc => .inr hc) id
  exact ⟨w₁, hask, (asked_of_askClasses h.serves.regular hright hask).1⟩

/-- References to a class accept boxes of this class only. -/
theorem accepts_of_orderly {boxes : ObjectClass} (h : w.types.Orderly travelClasses)
    (hboxes : boxes ∈ travelClasses) (hc : c ∈ travelClasses)
    (hroot : c.key ≠ ObjectClass.rootKey) :
    ∃ w₁, accepts boxes c w = (.ok (decide (boxes.key = c.key)), w₁) ∧ w.Asked w₁ ∧
      w₁.types.Orderly travelClasses := by
  obtain ⟨i, w₁, htouch, hasked, h₁, hi⟩ := touch_of_orderly h hboxes
  obtain ⟨j, w₂, htouch₂, hasked₂, h₂, hj⟩ := touch_of_orderly h₁ hc
  refine ⟨w₂, ?_, hasked.trans hasked₂, h₂⟩
  rw [accepts, run_bind_of_ok htouch, run_bind_of_ok htouch₂, run_get_bind,
    h₂.derivedFrom_eq hboxes hroot (hasked₂.later.classIndex? hi) hj]
  rfl

/-- The first content whose box is of the class is put into one; if there is none, nothing has
happened but that classes have been looked up. -/
theorem createAccepted_of_orderly (hc : c ∈ travelClasses) (hroot : c.key ≠ ObjectClass.rootKey) :
    ∀ (contents : List (ObjectClass × Payload κ)) {w : World κ},
      w.types.Orderly travelClasses → (∀ e ∈ contents, e.1 ∈ travelClasses) →
      match contents.find? (fun e => decide (e.1.key = c.key)) with
      | some e => ∃ id w₁, createAccepted c contents w = (.ok (some id), w₁) ∧
          w₁.ObjectAt id e.1 e.2
      | none => ∃ w₁, createAccepted c contents w = (.ok none, w₁)
  | [], w, _, _ => ⟨w, rfl⟩
  | (boxes, payload) :: rest, w, h, hcontents => by
      obtain ⟨hboxes, hrest⟩ := List.forall_mem_cons.mp hcontents
      obtain ⟨w₁, haccepts, hasked, h₁⟩ := accepts_of_orderly h hboxes hc hroot
      rw [createAccepted, run_bind_of_ok haccepts]
      by_cases hkey : boxes.key = c.key
      · obtain ⟨first, w₂, htouch, -, -, -⟩ := touch_of_orderly h₁ hboxes
        have hmake : create boxes payload w₁ = (.ok ⟨w₂.heap.cells.size⟩,
            { w₂ with heap := (w₂.heap.alloc first payload).1 }) := create_of_touch htouch
        simp only [List.find?_cons, decide_eq_true hkey, if_true]
        exact ⟨_, _, run_bind_of_ok hmake, (isFresh_of_create hmake).objectAt⟩
      · simp only [List.find?_cons, decide_eq_false hkey, Bool.false_eq_true, if_false]
        exact createAccepted_of_orderly hc hroot rest h₁ hrest

/-! ## Plain numbers -/

/-- A handle to a box is read as the number in it. -/
theorem decode_of_brings (h : w.types.Orderly travelClasses) (p : Primitive)
    (hv : w.Brings content v) :
    ∃ w₁, decode p.type v w = ((decode p.type content.value w).1, w₁) := by
  have hplain : ∀ w : World κ, decode p.type content.value w =
      ofExcept (w.decodePrimitive p content.value) w := by
    intro w
    rw [decode_primitive, queryAsking, content.object?_value]
    rfl
  cases hv with
  | plain => exact ⟨_, rfl⟩
  | handle tag id hbox =>
      obtain ⟨w₁, hask, hasked⟩ := askClasses_of_orderly h id
      have hbox₁ := hbox.asked hasked
      have hbelow : w₁.types.BelowRoot content.cls := by
        refine (h.below _ ?_).later h.serves.regular hasked.later
          ⟨_, h.serves.regular.index?_classIndex hbox.cls⟩
        exact content.cls_mem_travelClasses
      have hunboxed : w₁.unboxed (.object tag id) = content.value :=
        hbox₁.classify_of_below hasked.later.regular hbelow false
      refine ⟨w₁, ?_⟩
      rw [decode_primitive, queryAsking]
      simp only [Value.object?]
      rw [run_bind_of_ok hask, hplain]
      change ofExcept (w₁.decodePrimitive p (.object tag id)) w₁ = _
      rw [World.decodePrimitive_eq w₁ w p hunboxed]
      cases w.decodePrimitive p content.value <;> rfl

/-! ## References to boxes -/

theorem objectOf_value (c : ObjectClass) (content : BoxContent) :
    (objectOf c content.value : Run κ Ref) = (do
      match ← createAccepted c (World.boxings content.value) with
      | some id => memberOf c id
      | none => fail ((← get).mismatchWith content.value c.key)) := by
  cases content <;> rfl

/-- The classes of all boxes of a number tell how objects travel. -/
theorem boxings_mem (content : BoxContent) :
    ∀ e ∈ (World.boxings content.value : List (ObjectClass × Payload κ)),
      e.1 ∈ travelClasses := by
  have hclasses : ∀ c ∈ (World.boxings content.value : List (ObjectClass × Payload κ)).map Prod.fst,
      c ∈ travelClasses := by
    cases content <;> (simp only [BoxContent.value, World.boxings, List.map_cons, List.map_nil]; decide)
  exact fun e he => hclasses _ (List.mem_map_of_mem he)

/-- A plain number that is taken is put into a new box as the number that is read. -/
theorem objectOf_of_takes {p : Primitive} (h : w.types.Orderly travelClasses)
    (htakes : p.takes content = true) :
    ∃ x id w₁, p.read? content = some x ∧ objectOf p.box content.value w = (.ok (some id), w₁) ∧
      w₁.ObjectAt id p.box (p.boxed x).payload := by
  obtain ⟨x, hx⟩ := Primitive.read?_of_takes htakes
  have hcreate := createAccepted_of_orderly p.box_mem p.box_key_ne
    (World.boxings (κ := κ) content.value) h (boxings_mem content)
  rw [Primitive.find?_boxings, if_pos htakes, hx] at hcreate
  obtain ⟨id, w₁, hcreate, hbox⟩ := hcreate
  refine ⟨x, id, w₁, hx, ?_, hbox⟩
  rw [objectOf_value, run_bind_of_ok hcreate]
  exact memberOf_of_isInstance (World.isInstance_of_ofClass hbox.cls)

/-- A plain number that is not taken is refused. -/
theorem objectOf_of_not_takes {p : Primitive} (h : w.types.Orderly travelClasses)
    (htakes : p.takes content = false) :
    ∃ fault w₁, objectOf p.box content.value w = (.error fault, w₁) := by
  have hcreate := createAccepted_of_orderly p.box_mem p.box_key_ne
    (World.boxings (κ := κ) content.value) h (boxings_mem content)
  rw [Primitive.find?_boxings, htakes] at hcreate
  obtain ⟨w₁, hcreate⟩ := hcreate
  rw [objectOf_value, run_bind_of_ok hcreate]
  exact ⟨_, _, rfl⟩

/-- A handle to a box is passed on if the box is of the kind. -/
theorem objectOf_of_handle {p : Primitive} (h : w.types.Orderly travelClasses)
    (hbox : w.ObjectAt id content.cls content.payload) (tag : ObjectTag) :
    (content.cls = p.box → ∃ w₁, objectOf p.box (.object tag id) w = (.ok (some id), w₁) ∧
      w₁.ObjectAt id content.cls content.payload) ∧
    (content.cls ≠ p.box → ∃ fault w₁, objectOf p.box (.object tag id) w = (.error fault, w₁)) := by
  obtain ⟨o, ho, hpayload⟩ := hbox.alive
  have hheld : (w.withHeap (w.heap.retain id)).ObjectAt id content.cls content.payload := by
    have hmore : (w.heap.retain id).get? id = some { o with count := o.count + 1 } := by
      simp only [Heap.retain, ho, Heap.get?_set_self ho]
    exact hbox.of_same ho hmore rfl rfl fun hc => hc
  obtain ⟨first, w₁, htouch, hasked, -, hfirst⟩ :=
    touch_of_orderly (w := w.withHeap (w.heap.retain id)) h p.box_mem
  have hbox₁ := hheld.asked hasked
  have hretain : retain id w = (.ok (), w.withHeap (w.heap.retain id)) := rfl
  simp only [objectOf]
  rw [run_bind_of_ok hretain]
  refine ⟨fun hsame => ⟨w₁, ?_, hbox₁⟩, fun hother => ?_⟩
  · have hinstance : w₁.isInstance id p.box = true :=
      World.isInstance_of_ofClass (hsame ▸ hbox₁.cls)
    refine releasingOnFault_of_ok ?_
    rw [run_bind_of_ok htouch, run_get_bind, if_pos hinstance]
    rfl
  · have hkeys : ∀ c ∈ travelClasses, ∀ d ∈ travelClasses, d.key = c.key → c = d := by decide
    have hinstance : w₁.isInstance id p.box = false :=
      World.isInstance_of_key_ne hasked.later.regular hbox₁.cls p.box_isFinal p.box_key_ne
        fun hkey => hother (hkeys _ content.cls_mem_travelClasses _ p.box_mem hkey)
    have hfail : (do
        let _ ← touch p.box
        let w ← get
        if w.isInstance id p.box then return some id
        else fail (.typeMismatch p.box.key (w.typeKey id)) : Run κ Ref)
          (w.withHeap (w.heap.retain id)) =
        (.error (.error (.typeMismatch p.box.key (w₁.typeKey id))), w₁) := by
      rw [run_bind_of_ok htouch, run_get_bind, hinstance]
      rfl
    exact ⟨_, _, releasingOnFault_of_error hfail⟩

/-- Reading a number of some kind gives what the number is when it is read as one. -/
theorem decode_eq_ok_iff (h : w.types.Orderly travelClasses) (p : Primitive)
    (hv : w.Brings content v) (x : p.type.Carrier) :
    (∃ w₁, decode p.type v w = (.ok x, w₁)) ↔ p.read? content = some x := by
  obtain ⟨w₁, hread⟩ := decode_of_brings h p hv
  have hplain : decode p.type content.value w =
      ofExcept (w.decodePrimitive p content.value) w := by
    rw [decode_primitive, queryAsking, content.object?_value]
    rfl
  rw [hread, hplain]
  rcases w.decodePrimitive_value p content with ⟨y, hy, hdecode⟩ | ⟨hnone, cause, hdecode⟩
  · rw [hdecode, hy]
    constructor
    · rintro ⟨w₂, hok⟩
      cases hok
      rfl
    · intro hsame
      cases hsame
      exact ⟨w₁, rfl⟩
  · rw [hdecode, hnone]
    constructor
    · rintro ⟨w₂, hok⟩
      cases hok
    · intro hsame
      cases hsame

/-- What becomes of a number that is to be a reference to a box: if it is boxable, the reference is to
a box with the number that is read, which is the one in the handle if there is one. -/
theorem objectOf_of_brings (h : w.types.Orderly travelClasses) (p : Primitive)
    (hv : w.Brings content v) :
    (World.Boxable p content v → ∃ x id w₁, p.read? content = some x ∧
      objectOf p.box v w = (.ok (some id), w₁) ∧
      w₁.ObjectAt id p.box (p.boxed x).payload ∧ v.object?.all (· = id)) ∧
    (¬ World.Boxable p content v → ∃ fault w₁, objectOf p.box v w = (.error fault, w₁)) := by
  cases hv with
  | plain =>
      simp only [World.Boxable, content.object?_value, Option.isSome_none, Bool.false_eq_true,
        if_false, Bool.not_eq_true]
      refine ⟨fun htakes => ?_, objectOf_of_not_takes h⟩
      obtain ⟨x, id, w₁, hx, hobject, hbox⟩ := objectOf_of_takes h htakes
      exact ⟨x, id, w₁, hx, hobject, hbox, rfl⟩
  | handle tag id hbox =>
      obtain ⟨hsame, hother⟩ := objectOf_of_handle (p := p) h hbox tag
      simp only [World.Boxable, Value.object?, Option.isSome_some, if_true]
      refine ⟨fun hcls => ?_, hother⟩
      obtain ⟨w₁, hobject, hbox₁⟩ := hsame hcls
      obtain ⟨x, hx, hboxed⟩ := Primitive.read?_of_cls hcls
      refine ⟨x, id, w₁, hx, hobject, ?_, by simp⟩
      rw [hboxed, ← hcls]
      exact hbox₁

/-- Whether a number comes in a box makes no difference to whoever reads a plain number, in value and
in error.  Whoever reads a reference to a box gets one if a plain number of its kind can be read and
the value is boxable, and then it is to a box with this number. -/
theorem reading_and_boxing (h : w.types.Orderly travelClasses) (p : Primitive) (name : String)
    (hv : w.Brings content v) :
    (decode p.type v w).1 = (decode p.type content.value w).1 ∧
    ((∃ r w₁, decodeRef (.named name p.box) v w = (.ok r, w₁)) ↔
      (∃ x w₁, decode p.type v w = (.ok x, w₁)) ∧ World.Boxable p content v) ∧
    ∀ r w₁, decodeRef (.named name p.box) v w = (.ok r, w₁) →
      ∃ x id, (decode p.type v w).1 = .ok x ∧ r = some id ∧
        w₁.ObjectAt id p.box (p.boxed x).payload ∧ v.object?.all (· = id) := by
  obtain ⟨w₂, hread⟩ := decode_of_brings h p hv
  obtain ⟨hbox, hrefuse⟩ := objectOf_of_brings h p hv
  refine ⟨by rw [hread], ?_⟩
  simp only [decodeRef]
  by_cases hboxable : World.Boxable p content v
  · obtain ⟨x, id, w₁, hx, hobject, hbox, hsame⟩ := hbox hboxable
    obtain ⟨w₃, hdecode⟩ := (decode_eq_ok_iff h p hv x).mpr hx
    refine ⟨⟨fun _ => ⟨⟨x, w₃, hdecode⟩, hboxable⟩, fun _ => ⟨_, _, hobject⟩⟩, fun r w₄ hrun => ?_⟩
    obtain ⟨hr, rfl⟩ := Prod.mk.inj (hobject.symm.trans hrun)
    cases hr
    exact ⟨x, id, by rw [hdecode], rfl, hbox, hsame⟩
  · obtain ⟨fault, w₁, hobject⟩ := hrefuse hboxable
    have hnever : ∀ r w₄, objectOf p.box v w ≠ (.ok r, w₄) := by
      intro r w₄ hrun
      rw [hobject] at hrun
      cases hrun
    exact ⟨⟨fun ⟨r, w₄, hrun⟩ => absurd hrun (hnever r w₄), fun hboth => absurd hboth.2 hboxable⟩,
      fun r w₄ hrun => absurd hrun (hnever r w₄)⟩

/-- A world with a boxed truth value. -/
def boxedTrue : World Unit := (create .boxBool (.boxBool true) World.initial).2

theorem orderly_boxedTrue : boxedTrue.types.Orderly travelClasses := by
  have hinitial : (World.initial : World Unit).types.Orderly travelClasses :=
    Orderly.initial.mono builtin_travelClasses
  obtain ⟨-, -, horderly⟩ := hinitial.touch builtin_travelClasses (c := .boxBool) (by decide)
  exact horderly

theorem brings_boxedTrue : boxedTrue.Brings (.bool true) (.object .object ⟨0⟩) :=
  .handle .object ⟨0⟩ ⟨by rfl, by rfl⟩

/-- It is read as the number one, and not passed on as a boxed number. -/
theorem boxedTrue_read_not_passed : boxedTrue.types.Orderly travelClasses ∧
    boxedTrue.Brings (.bool true) (.object .object ⟨0⟩) ∧
    (decode (Primitive.type .int) (.object .object ⟨0⟩) boxedTrue).1 =
      (decode (Primitive.type .int) (.bool true) boxedTrue).1 ∧
    ((∃ r w₁, decodeRef (.named "Int" (Primitive.box .int)) (.object .object ⟨0⟩) boxedTrue =
        (.ok r, w₁)) ↔
      (∃ x w₁, decode (Primitive.type .int) (.object .object ⟨0⟩) boxedTrue = (.ok x, w₁)) ∧
        World.Boxable .int (.bool true) (.object .object ⟨0⟩)) := by
  obtain ⟨hread, hpassed, -⟩ := reading_and_boxing orderly_boxedTrue .int "Int" brings_boxedTrue
  exact ⟨orderly_boxedTrue, brings_boxedTrue, hread, hpassed⟩

/-- So a value that can be read as a number need not be one of which a boxed number can be had. -/
theorem boxedTrue_not_transparent : boxedTrue.types.Orderly travelClasses ∧
    boxedTrue.Brings (.bool true) (.object .object ⟨0⟩) ∧
    ¬ ((∃ r w₁, decodeRef (.named "Int" .boxInt) (.object .object ⟨0⟩) boxedTrue = (.ok r, w₁)) ↔
      ∃ x w₁, decode (.int .i64) (.object .object ⟨0⟩) boxedTrue = (.ok x, w₁)) := by
  refine ⟨orderly_boxedTrue, brings_boxedTrue, fun hiff => ?_⟩
  obtain ⟨w₁, hread⟩ := (decode_eq_ok_iff orderly_boxedTrue .int brings_boxedTrue _).mpr rfl
  obtain ⟨r, w₂, hpassed⟩ := hiff.mpr ⟨_, w₁, hread⟩
  obtain ⟨-, hrefuse⟩ := objectOf_of_brings orderly_boxedTrue .int brings_boxedTrue
  obtain ⟨fault, w₃, hrefused⟩ := hrefuse (by simp only [World.Boxable]; decide)
  rw [decodeRef] at hpassed
  exact nomatch hrefused.symm.trans hpassed

end Run

end ObjectRuntime

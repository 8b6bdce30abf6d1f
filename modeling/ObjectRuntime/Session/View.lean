import ObjectRuntime.Container.Box
import ObjectRuntime.Session.Basic
set_option autoImplicit false

/-!
# Views of values

A view shows a value with everything that it holds, and nothing of where it is kept.
-/

namespace ObjectRuntime

mutual

/-- What a value looks like. -/
inductive ValueView where
  | plain (v : Value)
  | object (tag : ObjectTag) (content : ObjectView)

/-- What an object looks like. -/
inductive ObjectView where
  | null
  | string (s : String)
  | array (elems : List ObjectView)
  | map (entries : List (ObjectView × ObjectView))
  | shape (dims : List Int)
  | box (c : BoxContent)
  | tensor (shape : List Int) (dtype : DataType) (data : Bytes)
  | module (kind : String)
  | function
  | node (typeKey : String) (attrs : List (String × ValueView))
  | other (typeKey : String)

end

namespace World

variable {κ : Type}

/-- How the objects that an object holds are shown. -/
def viewRef (inner : ObjId → ObjectView) (r : Ref) : ObjectView :=
  match r with
  | some id => inner id
  | none => .null

/-- How the values that an object holds are shown. -/
def viewValueBy (inner : ObjId → ObjectView) (v : Value) : ValueView :=
  match v with
  | .object tag id => .object tag (inner id)
  | v => .plain v

/-- The view of an object whose content is nested no deeper than the bound. -/
def viewWithin (w : World κ) : Nat → ObjId → ObjectView
  | 0, _ => .null
  | depth + 1, id =>
    let inner := w.viewWithin depth
    match w.payload? id with
    | some (.text s) => .string s
    | some (.array elems) => .array (elems.map (viewRef inner))
    | some (.map entries) =>
      .map (entries.map fun (k, v) => (viewRef inner k, viewRef inner v))
    | some (.shape dims) => .shape dims
    | some (.boxInt n) => .box (.int n)
    | some (.boxFloat x) => .box (.float x)
    | some (.boxBool b) => .box (.bool b)
    | some (.tensor t) => .tensor t.shape t.dtype ((w.tensorBytes id t).toOption.getD [])
    | some (.module t) => .module t.kind
    | some (.function _ _) => .function
    | _ =>
      match w.attrs id with
      | .ok attrs =>
        .node (w.typeKey id) (attrs.map fun a => (a.key, viewValueBy inner a.value))
      | .error _ => .other (w.typeKey id)

/-- The view of a value. -/
def viewValue (w : World κ) (v : Value) : ValueView :=
  viewValueBy (w.viewWithin (w.heap.cells.size + 1)) v

end World

end ObjectRuntime

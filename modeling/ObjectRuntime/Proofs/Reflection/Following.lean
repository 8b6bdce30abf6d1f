import ObjectRuntime.Proofs.Reflection.Aside
import ObjectRuntime.Proofs.Reflection.Questions
set_option autoImplicit false

/-!
# What the nodes of a graph follow

A node follows references to other nodes (`Loading.Follows`): an array or a map those of its list, an
object of a reflected class those in the texts of its attributes.  Nodes that are finished in an order
in which each follows only what was finished before it (`Loading.Closed`) lead back nowhere.
-/

namespace ObjectRuntime.Loading

open Build (Moved)
open Relation (ReflTransGen TransGen)

variable {κ : Type} {w w' : World κ} {nodes : List GraphNode} {n m : Nat}

/-- The types whose nodes say themselves what they are made of. -/
def ownKeys : List String :=
  [ObjectClass.string, .shapeTuple, .array, .map, .tensor].map ObjectClass.key

/-- The node with one number follows a reference to the node with another.  The attributes of a node
are read as the schema of its type says, of which the texts of those that admit nothing are
numbers of nodes.  Node 0 stands for nothing and follows none. -/
inductive Follows (w : World κ) (nodes : List GraphNode) : Nat → Nat → Prop
  | element {n m : Nat} {g : GraphNode} (nonzero : n ≠ 0) (node : nodes[n]? = some g)
      (key : g.typeKey = ObjectClass.array.key ∨ g.typeKey = ObjectClass.map.key)
      (listed : m ∈ g.data) : Follows w nodes n m
  | attr {n index : Nat} {g : GraphNode} {schema : Schema} {f : Field} {text : String}
      {m : MachineInt .usize} (nonzero : n ≠ 0) (node : nodes[n]? = some g)
      (key : g.typeKey ∉ ownKeys) (known : w.types.index? g.typeKey = some index)
      (reflected : w.schemaAt? index = some schema) (field : f ∈ schema.visible)
      (admits : f.type.acceptsNull = true) (given : g.attrs.lookup f.key = some text)
      (number : IntKind.usize.parse text = .ok m) : Follows w nodes n m.val.toNat

theorem Follows.nonzero {w : World κ} {nodes : List GraphNode} {n m : Nat}
    (h : Follows w nodes n m) : n ≠ 0 := by
  cases h with
  | element nonzero => exact nonzero
  | attr nonzero => exact nonzero

/-- How the node is read has been settled: its type is known, and so are those of the boxes, whose
schemas come before others. -/
def Settled (w : World κ) (nodes : List GraphNode) (n : Nat) : Prop :=
  ∀ g, nodes[n]? = some g → g.typeKey ∉ ownKeys →
    (∃ index, w.types.index? g.typeKey = some index) ∧ w.Reflecting

theorem reflecting_of_moved (hmoved : Moved w w') (h : w.Reflecting) : w'.Reflecting := by
  intro schema hschema
  obtain ⟨first, hfirst⟩ := h schema hschema
  exact ⟨first, hmoved.types.classIndex? hfirst⟩

/-- Whoever uses reflection makes the boxes known. -/
theorem reflecting_of_useReflection (hrun : Run.useReflection w = (.ok (), w')) :
    w'.Reflecting := by
  have hall : ∀ (schemas : List Schema) {w : World κ},
      (schemas.forM fun s => do let _ ← Run.touch s.cls) w = (.ok (), w') →
      ∀ schema ∈ schemas, ∃ first, w'.types.classIndex? schema.cls = some first := by
    intro schemas
    induction schemas with
    | nil => exact fun _ _ hschema => nomatch hschema
    | cons schema schemas ih =>
        intro w hrun
        obtain ⟨_, w₁, hfirst, hrest⟩ := run_bind_eq_ok.mp hrun
        obtain ⟨first, _, htouch, hdone⟩ := run_bind_eq_ok.mp hfirst
        cases hdone
        have hrests : Run.Advances (fun _ => True)
            (schemas.forM fun s => do let _ ← Run.touch (κ := κ) s.cls) :=
          Run.advances_forM (fun s => (Run.advances_touch trivial).bind fun _ =>
            Run.advances_pure ()) schemas
        have hmoved := hrests w₁
        rw [hrest] at hmoved
        exact List.forall_mem_cons.mpr
          ⟨⟨first, hmoved.types.classIndex? (Run.known_of_touch htouch)⟩, ih hrest⟩
  exact hall Schema.builtins hrun

/-- Once the boxes are known the schemas of all types stay. -/
theorem schemaAt?_of_moved (hmoved : Moved w w') (h : w.Reflecting) (index : Nat) :
    w'.schemaAt? index = w.schemaAt? index := by
  have hboxes : ∀ schema ∈ Schema.builtins.reverse,
      w'.types.classIndex? schema.cls = w.types.classIndex? schema.cls := by
    intro schema hschema
    obtain ⟨first, hfirst⟩ := h schema (List.mem_reverse.mp hschema)
    rw [hfirst, hmoved.types.classIndex? hfirst]
  have hfind : Schema.builtins.reverse.find?
        (fun schema => w'.types.classIndex? schema.cls == some index) =
      Schema.builtins.reverse.find?
        (fun schema => w.types.classIndex? schema.cls == some index) := by
    apply List.find?_congr
    intro schema hschema
    rw [hboxes schema hschema]
  simp only [World.schemaAt?, hfind, hmoved.schemas]

theorem Settled.moved (h : Settled w nodes n) (hmoved : Moved w w') : Settled w' nodes n := by
  intro g hnode hkey
  obtain ⟨⟨index, hindex⟩, hboxes⟩ := h g hnode hkey
  exact ⟨⟨index, hmoved.types.index? hindex⟩, reflecting_of_moved hmoved hboxes⟩

/-- A node that has been read follows nothing new later. -/
theorem Settled.follows (h : Settled w nodes n) (hmoved : Moved w w')
    (hfollows : Follows w' nodes n m) : Follows w nodes n m := by
  cases hfollows with
  | element nonzero node key listed => exact .element nonzero node key listed
  | attr nonzero node key known reflected field admits given number =>
      obtain ⟨⟨index, hindex⟩, hboxes⟩ := h _ node key
      obtain rfl := Option.some.inj (known.symm.trans (hmoved.types.index? hindex))
      rw [schemaAt?_of_moved hmoved hboxes] at reflected
      exact .attr nonzero node key hindex reflected field admits given number

/-! ## Nodes in the order in which they are finished -/

/-- Of these nodes, the last finished first, each follows only nodes that were finished before it. -/
def Closed (w : World κ) (nodes : List GraphNode) : List Nat → Prop
  | [] => True
  | n :: before =>
    Settled w nodes n ∧ (∀ m, Follows w nodes n m → m = 0 ∨ m ∈ before) ∧ Closed w nodes before

theorem Closed.moved (hmoved : Moved w w') : ∀ {ns : List Nat}, Closed w nodes ns →
    Closed w' nodes ns
  | [], _ => trivial
  | _ :: _, ⟨hsettled, hbefore, hrest⟩ =>
      ⟨hsettled.moved hmoved, fun m hm => hbefore m (hsettled.follows hmoved hm),
        Closed.moved hmoved hrest⟩

/-- The references of finished nodes lead to finished nodes. -/
theorem Closed.reaches {ns : List Nat} (h : Closed w nodes ns) (hn : n = 0 ∨ n ∈ ns)
    (hreach : ReflTransGen (Follows w nodes) n m) : m = 0 ∨ m ∈ ns := by
  have hstep : ∀ {ns : List Nat}, Closed w nodes ns → ∀ n ∈ ns, ∀ m, Follows w nodes n m →
      m = 0 ∨ m ∈ ns := by
    intro ns h n hn m hm
    induction ns with
    | nil => cases hn
    | cons k before ih =>
        obtain ⟨-, hbefore, hrest⟩ := h
        rcases List.mem_cons.mp hn with rfl | hn
        · exact (hbefore m hm).imp_right (List.mem_cons_of_mem n)
        · exact (ih hrest hn).imp_right (List.mem_cons_of_mem k)
  induction hreach with
  | refl => exact hn
  | tail _ hlast ih =>
      rcases ih with rfl | hmem
      · exact absurd rfl hlast.nonzero
      · exact hstep h _ hmem _ hlast

/-- Finished nodes do not lead back to themselves. -/
theorem Closed.acyclic {ns : List Nat} (h : Closed w nodes ns) (hnodup : ns.Nodup) (hn : n ∈ ns) :
    ¬ TransGen (Follows w nodes) n n := by
  induction ns with
  | nil => cases hn
  | cons k before ih =>
      obtain ⟨-, hbefore, hrest⟩ := h
      obtain ⟨hfresh, hnodup⟩ := List.nodup_cons.mp hnodup
      rcases List.mem_cons.mp hn with rfl | hn
      · intro hcycle
        obtain ⟨m, hfirst, hback⟩ := TransGen.head'_iff.mp hcycle
        rcases hrest.reaches (hbefore m hfirst) hback with rfl | hmem
        · exact hfirst.nonzero rfl
        · exact hfresh hmem
      · exact ih hrest hnodup hn

end ObjectRuntime.Loading

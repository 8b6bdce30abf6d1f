import ObjectRuntime.Proofs.Reflection.Fields
import Mathlib.Data.List.Perm.Subperm
set_option autoImplicit false

/-!
# Copies made of whole graphs

If every node of a graph without cycles spells the object with its number, then what is made of a
node is a copy of this object.  While a node is read, the nodes on the path to it belong to objects
above it, so none is met twice and the path never gets longer than there are nodes.
-/

namespace ObjectRuntime

namespace Loading

open Build (Ready Onward Makes NewCopy)
open Relation (ReflTransGen TransGen)
open Saving (Numbered)
open World (CopyOf RefRel)

variable {κ : Type} {w : World κ} {numbers : List (ObjId × Nat)} {nodes : List GraphNode}
  {root : Ref} {id : ObjId} {g : GraphNode} {s s' : BuildState} {h h' : Heap κ} {v v' : World κ}
  {resolve : Nat → Build κ Ref} {path : List Nat} {free n : Nat}

/-- Every node spells the object with its number, and fields can take copies of all objects. -/
structure SpellsAll (w : World κ) (numbers : List (ObjId × Nat)) (nodes : List GraphNode)
    (root : Ref) : Prop where
  range : ∀ a n, numbers.lookup a = some n → 0 < n ∧ n < nodes.length
  room : IntKind.usize.Fits nodes.length
  injective : ∀ a a' n, numbers.lookup a = some n → numbers.lookup a' = some n → a = a'
  acyclic : w.Acyclic root
  takeable : ∀ a, w.Below root a → Takeable w a
  spells : ∀ a n, w.Below root a → numbers.lookup a = some n →
    ∃ g, nodes[n]? = some g ∧ Spells w (Numbered numbers) a g

/-- The number of every object is one that can be read. -/
theorem SpellsAll.fits (hall : SpellsAll w numbers nodes root) (a : ObjId) (n : Nat)
    (hn : numbers.lookup a = some n) : IntKind.usize.Fits n := by
  have hlt := (hall.range a n hn).2
  have hroom := hall.room
  simp only [IntKind.Fits] at hroom ⊢
  have hmin : IntKind.usize.min = 0 := rfl
  omega

/-! ## One node -/

/-- What a node spells is made into a copy of the object. -/
theorem makes_object (hready : Ready w numbers s h) (hresolve : Resolves w numbers resolve id path)
    (hpath : s.path = path) (hall : SpellsAll w numbers nodes root) (hid : w.Below root id)
    (hspells : Spells w (Numbered numbers) id g) :
    Makes w numbers (object resolve n g) s h (NewCopy w numbers id) := by
  cases hspells with
  | text t cls content key text => exact makes_object_text hready cls content key text
  | shape dims cls content fits key text =>
      exact makes_object_shape hready cls content fits key text
  | array elems cls content key data =>
      exact makes_object_array hready hresolve hpath cls content key data
  | strings entries cls content distinct key keys known data =>
      exact makes_object_strings hready hresolve hpath cls content distinct key keys known data
  | map entries pairs cls content distinct key keys asked data spelled =>
      exact makes_object_map hready hresolve hpath cls content distinct key hall.injective keys
        asked data spelled
  | tensor t data cls content whole bytes key base64 =>
      exact makes_object_tensor hready cls content whole bytes key base64
  | node schema values texts cls reflected own distinct content boxes key attrs spelled =>
      refine makes_object_node hready hresolve hpath hall.fits (hall.takeable id hid).1 cls
        reflected own distinct content boxes key attrs spelled fun a ha => ?_
      obtain ⟨top, htop, hbelow⟩ := hid
      exact hall.takeable a ⟨top, htop, hbelow.tail ha⟩

/-! ## The nodes on the way -/

theorem get_bind {α : Type} (f : BuildState → Build κ α) :
    ((get : Build κ BuildState) >>= f) s v = f s s v := rfl

theorem modify_bind {α : Type} (f : BuildState → BuildState) (g : Unit → Build κ α) :
    ((modify f : Build κ Unit) >>= g) s v = g () (f s) v := rfl

theorem resolve_zero : Loading.resolve nodes free 0 s v = ((.ok none, s), v) := by
  rw [Loading.resolve, if_pos rfl]
  rfl

/-- A node that is finished is not made again. -/
theorem resolve_of_finished {r : Ref} (hn : n ≠ 0) (hdone : s.finished.lookup n = some r) :
    Loading.resolve nodes free n s v = ((.ok r, s), v) := by
  rw [Loading.resolve, if_neg hn, get_bind, hdone]
  rfl

/-- A node that is new is made, and is finished then. -/
theorem resolve_of_new {r : Ref} (hn : n ≠ 0) (hdone : s.finished.lookup n = none)
    (hnode : nodes[n]? = some g) (hpath : n ∉ s.path)
    (hobject : object (Loading.resolve nodes free) n g { s with path := n :: s.path } v =
      ((.ok r, s'), v')) :
    Loading.resolve nodes (free + 1) n s v =
      ((.ok r, { s' with path := s'.path.erase n, finished := (n, r) :: s'.finished }), v') := by
  rw [Loading.resolve, if_neg hn, get_bind, hdone, hnode]
  simp only
  rw [get_bind, if_neg (by simpa using hpath), modify_bind, Build.bind_of_ok hobject, modify_bind]
  rfl

/-! ## Whole graphs -/

/-- The nodes that are being read belong to objects above the one that a reference refers to. -/
structure Above (w : World κ) (numbers : List (ObjId × Nat)) (path : List Nat) (r : Ref) : Prop where
  distinct : path.Nodup
  above : ∀ n ∈ path, ∃ x, numbers.lookup x = some n ∧ ∀ a, r = some a → TransGen w.Refers x a

theorem Above.start (w : World κ) (numbers : List (ObjId × Nat)) (r : Ref) :
    Above w numbers [] r := ⟨.nil, fun _ hn => nomatch hn⟩

/-- No object is above itself. -/
theorem Above.not_mem {a : ObjId} (h : Above w numbers path (some a))
    (hall : SpellsAll w numbers nodes root) (ha : w.Below root a) (hn : numbers.lookup a = some n) :
    n ∉ path := by
  intro hmem
  obtain ⟨x, hx, habove⟩ := h.above n hmem
  obtain rfl := hall.injective x a n hx hn
  obtain ⟨top, htop, hbelow⟩ := ha
  exact hall.acyclic top htop x hbelow (habove x rfl)

/-- While a node is read, it is above what its object refers to. -/
theorem Above.cons {a : ObjId} {r : Ref} (h : Above w numbers path (some a))
    (hn : numbers.lookup a = some n) (hnew : n ∉ path) (hr : ∀ b, r = some b → w.Refers a b) :
    Above w numbers (n :: path) r where
  distinct := List.nodup_cons.mpr ⟨hnew, h.distinct⟩
  above m hm := by
    rcases List.mem_cons.mp hm with rfl | hm
    · exact ⟨a, hn, fun b hb => .single (hr b hb)⟩
    · obtain ⟨x, hx, habove⟩ := h.above m hm
      exact ⟨x, hx, fun b hb => (habove a rfl).tail (hr b hb)⟩

/-- There are more nodes than a node that is not being read has above it. -/
theorem Above.length_lt {r : Ref} (h : Above w numbers path r)
    (hall : SpellsAll w numbers nodes root) (hnew : n ∉ path) (hn : n < nodes.length) :
    path.length < nodes.length := by
  have hsubset : n :: path ⊆ List.range nodes.length := by
    intro m hm
    rw [List.mem_range]
    rcases List.mem_cons.mp hm with rfl | hm
    · exact hn
    · obtain ⟨x, hx, -⟩ := h.above m hm
      exact (hall.range x m hx).2
  have hle := (List.subperm_of_subset (List.nodup_cons.mpr ⟨hnew, h.distinct⟩) hsubset).length_le
  rw [List.length_cons, List.length_range] at hle
  exact hle

/-- A node that has been made is the copy of the object with its number. -/
theorem resolved_of_finished {a : ObjId} {r : Ref} (hready : Ready w numbers s h)
    (hall : SpellsAll w numbers nodes root) (hn : numbers.lookup a = some n)
    (hdone : s.finished.lookup n = some r) : Resolved w numbers s h (some a) r := by
  obtain ⟨x, b, hx, rfl, hcopy, hheld⟩ := hready.finished n r hdone
  obtain rfl := hall.injective x a n hx hn
  refine ⟨hcopy, fun b' hb' => ?_, fun a' ha' => ?_⟩
  · cases hb'
    exact hheld
  · cases ha'
    exact ⟨n, hn, hdone⟩

/-- What stands for an object still does so when another node is finished. -/
theorem copied_finish {a b : ObjId} {r : Ref} {path' : List Nat} (hdone : s.finished.lookup n = none)
    (hab : Build.Copied w numbers s h a b) :
    Build.Copied w numbers { s with path := path', finished := (n, r) :: s.finished } h a b := by
  refine ⟨hab.1, hab.2.imp_left fun ⟨m, hm, hlookup⟩ => ⟨m, hm, ?_⟩⟩
  have hne : m ≠ n := fun heq => by simp [heq, hdone] at hlookup
  simpa only [lookup_cons_eq, if_neg hne] using hlookup

/-- A new copy of the object with a number is what has been made of the node with this number. -/
theorem ready_finish {a : ObjId} {r : Ref} (path' : List Nat) (hready : Ready w numbers s h)
    (hall : SpellsAll w numbers nodes root) (hpath : s.path = n :: path') (hpath' : n ∉ path')
    (hn : numbers.lookup a = some n) (hnew : NewCopy w numbers a s h r) :
    Ready w numbers { s with path := path', finished := (n, r) :: s.finished } h where
  grown := hready.grown
  base := hready.base
  backed := hready.backed
  finished m r' hm := by
    rw [lookup_cons_eq] at hm
    split at hm
    · rename_i heq
      cases hm
      obtain ⟨b, hb, hcopy, -, hheld, -⟩ := hnew
      exact ⟨a, b, heq ▸ hn, hb, hcopy, hheld⟩
    · exact hready.finished m r' hm
  distinct m m' b hm hm' := by
    obtain ⟨c, rfl, -, -, -, hfresh⟩ := hnew
    rw [lookup_cons_eq] at hm hm'
    split at hm
    · split at hm'
      · rename_i heq heq'
        exact heq.trans heq'.symm
      · cases hm
        exact absurd hm' (hfresh m')
    · split at hm'
      · cases hm'
        exact absurd hm (hfresh m)
      · exact hready.distinct m m' b hm hm'
  shares x m b hx hm := by
    have hdone := hready.pending n (hpath ▸ List.mem_cons_self)
    have hlocal : World.LocalCopy w h (Build.Copied w numbers s h) x b := by
      rw [lookup_cons_eq] at hm
      split at hm
      · rename_i heq
        obtain rfl := hall.injective x a n (heq ▸ hx) hn
        obtain ⟨c, rfl, -, hcopy, -, -⟩ := hnew
        cases hm
        exact hcopy
      · exact hready.shares x m b hx hm
    exact hlocal.mono (.refl h) fun _ _ => copied_finish hdone
  pending m hm := by
    have hne : m ≠ n := fun heq => hpath' (heq ▸ hm)
    simpa only [lookup_cons_eq, if_neg hne] using
      hready.pending m (hpath ▸ List.mem_cons_of_mem n hm)

/-- A reference to nothing is resolved to nothing. -/
theorem makes_nothing (hready : Ready w numbers s h) :
    Makes w numbers (Loading.resolve nodes free 0) s h
      fun s h r' => Resolved w numbers s h none r' :=
  ⟨none, s, h, resolve_zero, hready, .refl s h, trivial, fun _ hb => (nomatch hb),
    fun _ ha => (nomatch ha)⟩

/-- Every reference to an object of the graph is resolved to a copy of it. -/
theorem makes_resolve (hall : SpellsAll w numbers nodes root) :
    ∀ free s h r n, Ready w numbers s h → Numbered numbers r n →
      (∀ a, r = some a → w.Below root a) → Above w numbers s.path r →
      nodes.length ≤ free + s.path.length →
        Makes w numbers (Loading.resolve nodes free n) s h
          fun s h r' => Resolved w numbers s h r r' := by
  intro free
  induction free with
  | zero =>
      intro s h r n hready hnumber hbelow habove hfree
      cases r with
      | none =>
          cases hnumber
          exact makes_nothing hready
      | some a =>
          have hrange := hall.range a n hnumber
          have hlt := habove.length_lt hall (habove.not_mem hall (hbelow a rfl) hnumber) hrange.2
          omega
  | succ free ih =>
      intro s h r n hready hnumber hbelow habove hfree
      cases r with
      | none =>
          cases hnumber
          exact makes_nothing hready
      | some a =>
          have hrange := hall.range a n hnumber
          have hn : n ≠ 0 := Nat.ne_of_gt hrange.1
          cases hdone : s.finished.lookup n with
          | some r' =>
              exact ⟨r', s, h, resolve_of_finished hn hdone, hready, .refl s h,
                resolved_of_finished hready hall hnumber hdone⟩
          | none =>
              have hnew := habove.not_mem hall (hbelow a rfl) hnumber
              obtain ⟨g, hnode, hspells⟩ := hall.spells a n (hbelow a rfl) hnumber
              obtain ⟨top, htop, hreach⟩ := hbelow a rfl
              have hresolve : Resolves w numbers (Loading.resolve nodes free) a (n :: s.path) := by
                intro s' h' r' m hready' hpath' hnumber' hrefers
                refine ih s' h' r' m hready' hnumber' (fun b hb => ?_) ?_ ?_
                · exact ⟨top, htop, hreach.tail (hrefers b hb)⟩
                · rw [hpath']
                  exact habove.cons hnumber hnew hrefers
                · rw [hpath', List.length_cons]
                  omega
              have hready₀ : Ready w numbers { s with path := n :: s.path } h :=
                { hready with
                  pending := List.forall_mem_cons.mpr ⟨hdone, hready.pending⟩ }
              obtain ⟨r', s', h', hobject, hready', honward, hcopy⟩ :=
                makes_object hready₀ hresolve rfl hall (hbelow a rfl) hspells
              have hpath : s'.path.erase n = s.path := by
                rw [honward.path, List.erase_cons_head]
              have hready'' := ready_finish (s'.path.erase n) hready' hall
                (honward.path.trans (congrArg _ hpath.symm)) (hpath ▸ hnew) hnumber hcopy
              refine ⟨r', _, h', resolve_of_new hn hdone hnode hnew hobject, hready'', ?_, ?_⟩
              · refine ⟨honward.grown, honward.held, fun m r hm => ?_, hpath⟩
                have hne : m ≠ n := fun heq => by simp [heq, hdone] at hm
                simp only [lookup_cons_eq, if_neg hne]
                exact honward.finished m r hm
              · exact resolved_of_finished hready'' hall hnumber
                  (by simp only [lookup_cons_eq, if_true])

end Loading

end ObjectRuntime

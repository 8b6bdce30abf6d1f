import ObjectRuntime.Proofs.Reflection.Reading
import ObjectRuntime.Proofs.Reflection.Resolving
set_option autoImplicit false

/-!
# Loading ends on every graph

A node that is new is not on the path to it, so the path never gets longer than there are nodes, and
loading goes no deeper than that.  No node is read twice, and the references that have been followed
when loading succeeds lead back nowhere.
-/

namespace ObjectRuntime

open Relation (ReflTransGen TransGen)

namespace Loading

variable {κ : Type} {w : World κ} {nodes : List GraphNode} {s : BuildState} {path : List Nat}
  {n : Nat} {g : GraphNode}

/-! ## Following one reference -/

/-- Follows one reference; how those of its node are followed is left open.  Nothing here counts how
deep the node is. -/
def follow (nodes : List GraphNode) (deeper : Nat → Build κ Ref) (n : Nat) : Build κ Ref := do
  if n = 0 then return none
  match (← get).finished.lookup n with
  | some r => return r
  | none =>
    match nodes[n]? with
    | none => malformed (.indexOutOfRange n)
    | some g =>
      if (← get).path.contains n then malformed (.cycle n)
      else
        modify fun s => { s with path := n :: s.path }
        let r ← object deeper n g
        modify fun s => { s with path := s.path.erase n, finished := (n, r) :: s.finished }
        return r

theorem resolve_succ (free : Nat) :
    Loading.resolve (κ := κ) nodes (free + 1) = follow nodes (Loading.resolve nodes free) := by
  funext n
  rw [Loading.resolve]
  rfl

/-- The node has to be read now. -/
structure New (nodes : List GraphNode) (s : BuildState) (n : Nat) (g : GraphNode) : Prop where
  nonzero : n ≠ 0
  node : nodes[n]? = some g
  unfinished : s.finished.lookup n = none
  unbegun : n ∉ s.path

/-- A node that need not or cannot be read now is dealt with at once, and nothing changes. -/
theorem reads_at_once (h : Orderly nodes path s w) (hold : ∀ g, ¬ New nodes s n g) (free : Nat)
    (deeper : Nat → Build κ Ref) :
    Reads nodes path s w (Loading.resolve nodes free n) (follow nodes deeper n)
      fun _ s' _ => Done s' n := by
  have hdone : ∀ {x y : Build κ Ref} {r : Ref}, x s w = ((.ok r, s), w) → y s w = ((.ok r, s), w) →
      Done s n → Reads nodes path s w x y fun _ s' _ => Done s' n := by
    intro x y r hx hy hn
    refine ⟨hy.trans hx.symm, by rw [hx]; exact h.once, fun a s' w' hrun => ?_⟩
    rw [hx] at hrun
    cases hrun
    exact ⟨h, .refl s w, hn⟩
  have hfails : ∀ (fault : Fault) {x y : Build κ Ref}, x s w = ((.error fault, s), w) →
      y s w = ((.error fault, s), w) → Reads nodes path s w x y fun _ s' _ => Done s' n := by
    intro fault x y hx hy
    refine ⟨hy.trans hx.symm, by rw [hx]; exact h.once, fun a s' w' hrun => ?_⟩
    rw [hx] at hrun
    cases hrun
  by_cases hzero : n = 0
  · subst hzero
    refine hdone (r := none) ?_ ?_ (.inl rfl)
    · rw [Loading.resolve, if_pos rfl]
      rfl
    · rw [follow, if_pos rfl]
      rfl
  cases hlookup : s.finished.lookup n with
  | some r =>
      have hmem : n ∈ s.finished.map Prod.fst := List.mem_map_of_mem (mem_of_lookup hlookup)
      refine hdone (r := r) ?_ ?_ (.inr hmem)
      · rw [Loading.resolve, if_neg hzero, get_bind, hlookup]
        rfl
      · rw [follow, if_neg hzero, get_bind, hlookup]
        rfl
  | none =>
      cases hnode : nodes[n]? with
      | none =>
          refine hfails (.error (.graphFormat (.indexOutOfRange n))) ?_ ?_
          · rw [Loading.resolve, if_neg hzero, get_bind, hlookup, hnode]
            rfl
          · rw [follow, if_neg hzero, get_bind, hlookup, hnode]
            rfl
      | some g =>
          have hpath : s.path.contains n = true := by
            by_contra hpath
            exact hold g ⟨hzero, hnode, hlookup, by simpa using hpath⟩
          refine hfails (.error (.graphFormat (.cycle n))) ?_ ?_
          · rw [Loading.resolve, if_neg hzero, get_bind, hlookup, hnode]
            simp only
            rw [get_bind, if_pos hpath]
            rfl
          · rw [follow, if_neg hzero, get_bind, hlookup, hnode]
            simp only
            rw [get_bind, if_pos hpath]
            rfl

/-- A new node is read after it has been noted, and is finished then. -/
theorem reads_new {free : Nat} {deeper : Nat → Build κ Ref} (h : Orderly nodes path s w)
    (hnew : New nodes s n g)
    (hdeeper : ReadsEach nodes (n :: path) (Loading.resolve nodes free) deeper) :
    Reads nodes path s w (Loading.resolve nodes (free + 1) n) (follow nodes deeper n)
      fun _ s' _ => Done s' n := by
  have hunfold : ∀ deeper : Nat → Build κ Ref, follow nodes deeper n s w =
      (object deeper n g >>= fun r => do
        modify fun s => { s with path := s.path.erase n, finished := (n, r) :: s.finished }
        return r : Build κ Ref) { s with path := n :: s.path } w := by
    intro deeper
    rw [follow, if_neg hnew.nonzero, get_bind, hnew.unfinished, hnew.node]
    simp only
    rw [get_bind, if_neg (by simpa using hnew.unbegun), modify_bind]
  have hfresh : n ∉ begun s := by
    intro hmem
    rcases List.mem_append.mp hmem with hmem | hmem
    · exact hnew.unbegun hmem
    · obtain ⟨⟨_, r⟩, he, rfl⟩ := List.mem_map.mp hmem
      exact absurd (List.lookup_eq_none_iff.mp hnew.unfinished _ he) (by simp)
  have hnoted : Orderly nodes (n :: path) { s with path := n :: s.path } w := by
    obtain ⟨hlt, -⟩ := List.getElem?_eq_some_iff.mp hnew.node
    exact ⟨congrArg _ h.path, List.nodup_cons.mpr ⟨hfresh, h.once⟩,
      List.forall_mem_cons.mpr ⟨⟨hnew.nonzero, hlt⟩, h.inside⟩, h.closed⟩
  obtain ⟨hagree, honce, hok⟩ := reads_object hdeeper hnoted hnew.node
  rw [resolve_succ]
  rcases hrun : object (Loading.resolve nodes free) n g { s with path := n :: s.path } w with
    ⟨⟨fault | r, s₁⟩, w₁⟩
  all_goals rw [hrun] at hagree honce
  · refine ⟨?_, ?_, fun a s' w' hfollow => ?_⟩
    · rw [hunfold, hunfold, Build.bind_of_error hrun, Build.bind_of_error hagree]
    · rw [hunfold, Build.bind_of_error hrun]
      exact honce
    · rw [hunfold, Build.bind_of_error hrun] at hfollow
      cases hfollow
  · obtain ⟨horderly, honwards, hsettled, hfollows⟩ := hok r s₁ w₁ hrun
    have hend : follow nodes (Loading.resolve nodes free) n s w =
        ((.ok r, { s₁ with path := s₁.path.erase n, finished := (n, r) :: s₁.finished }), w₁) := by
      rw [hunfold, Build.bind_of_ok hrun, modify_bind]
      rfl
    have hpath : s₁.path.erase n = path := by rw [horderly.path, List.erase_cons_head]
    -- what is taken off the path is what is finished
    have hperm : (begun { s₁ with path := s₁.path.erase n, finished := (n, r) :: s₁.finished }).Perm
        (begun s₁) := by
      simp only [begun, horderly.path, List.erase_cons_head, List.map_cons, List.cons_append]
      exact List.perm_middle
    have hfinished : n ∉ s₁.finished.map Prod.fst := by
      have hnodup := horderly.once
      rw [begun, horderly.path, List.cons_append, List.nodup_cons] at hnodup
      exact fun hmem => hnodup.1 (List.mem_append_right _ hmem)
    refine ⟨?_, ?_, fun a s' w' hfollow => ?_⟩
    · rw [hend, hunfold, Build.bind_of_ok hagree, modify_bind]
      rfl
    · rw [hend]
      exact hperm.nodup_iff.mpr honce
    · rw [hend] at hfollow
      cases hfollow
      refine ⟨⟨hpath, hperm.nodup_iff.mpr honce, fun m hm => ?_, hsettled, fun m hm => ?_, ?_⟩,
        ⟨honwards.moved, ?_⟩, .inr List.mem_cons_self⟩
      · exact horderly.inside m (hperm.mem_iff.mp hm)
      · exact hfollows m hm
      · exact horderly.closed
      · exact List.subset_cons_of_subset n honwards.finished

/-! ## Whole graphs -/

/-- There is always a node left that is not on the path to one that is new. -/
theorem New.room (hnew : New nodes s n g) (h : Orderly nodes path s w) :
    path.length < nodes.length := by
  have hnodup : path.Nodup := h.path ▸ (List.nodup_append.mp h.once).1
  have hsubset : n :: path ⊆ List.range nodes.length := by
    intro m hm
    rw [List.mem_range]
    rcases List.mem_cons.mp hm with rfl | hm
    · exact (List.getElem?_eq_some_iff.mp hnew.node).1
    · exact (h.inside m (List.mem_append_left _ (h.path.symm ▸ hm))).2
  have hfresh : n ∉ path := h.path ▸ hnew.unbegun
  have hle := (List.subperm_of_subset (List.nodup_cons.mpr ⟨hfresh, hnodup⟩) hsubset).length_le
  rwa [List.length_cons, List.length_range] at hle

/-- Following references goes no deeper than there are nodes beside the path, so it does not matter
what would be done then. -/
theorem readsEach_within (deeper : Nat → Build κ Ref) :
    ∀ (free : Nat) {path : List Nat}, nodes.length ≤ free + path.length →
      ReadsEach nodes path (Loading.resolve nodes free) ((follow nodes)^[free + 1] deeper) := by
  intro free
  induction free with
  | zero =>
      intro path hfree n s w h
      have hold : ∀ g, ¬ New nodes s n g := by
        intro g hnew
        have hroom := hnew.room h
        omega
      exact reads_at_once h hold 0 deeper
  | succ free ih =>
      intro path hfree n s w h
      rw [Function.iterate_succ_apply']
      by_cases hnew : ∃ g, New nodes s n g
      · obtain ⟨g, hnew⟩ := hnew
        refine reads_new h hnew (ih ?_)
        rw [List.length_cons]
        omega
      · exact reads_at_once h (not_exists.mp hnew) (free + 1) _

/-- Before anything is read everything is in order. -/
theorem orderly_start (nodes : List GraphNode) (w : World κ) :
    Orderly nodes [] ⟨[], [], []⟩ w :=
  ⟨rfl, .nil, fun _ hn => (nomatch hn), trivial⟩

end Loading

open Loading (Follows begun)

variable {κ : Type}

/-- Whatever the graph and the world are like, loading ends.  References are never followed deeper
than there are nodes, so that nothing depends on what would be done there, and no node is read
twice, even if loading fails.  If it succeeds, every node to which references lead from the root is
in the graph, and none of them leads back to itself. -/
theorem loadGraph_follows_no_cycle (g : Graph) (w : World κ) (deeper : Nat → Build κ Ref) :
    (∀ depth, g.nodes.length < depth →
      (Loading.follow g.nodes)^[depth] deeper g.root ⟨[], [], []⟩ w =
        Loading.resolve g.nodes g.nodes.length g.root ⟨[], [], []⟩ w) ∧
    (begun (Loading.resolve g.nodes g.nodes.length g.root ⟨[], [], []⟩ w).1.2).Nodup ∧
    ∀ r w', loadGraph g w = (.ok r, w') →
      ∀ n, ReflTransGen (Follows w' g.nodes) g.root n →
        n < max g.nodes.length 1 ∧ ¬ TransGen (Follows w' g.nodes) n n := by
  have hreads := fun deeper : Nat → Build κ Ref =>
    Loading.readsEach_within deeper g.nodes.length (Nat.le_add_right _ _) g.root _ w
      (Loading.orderly_start g.nodes w)
  refine ⟨fun depth hdepth => ?_, (hreads deeper).once, fun r w' hload n hreach => ?_⟩
  · obtain ⟨more, rfl⟩ := Nat.exists_eq_add_of_lt hdepth
    have hsplit : (Loading.follow g.nodes)^[g.nodes.length + more + 1] deeper =
        (Loading.follow g.nodes)^[g.nodes.length + 1] ((Loading.follow g.nodes)^[more] deeper) := by
      rw [← Function.iterate_add_apply]
      congr 1
      omega
    rw [hsplit]
    exact (hreads _).agree
  · unfold loadGraph at hload
    split at hload
    · cases hload
    · simp only [Build.run] at hload
      rcases hrun : Loading.resolve g.nodes g.nodes.length g.root ⟨[], [], []⟩ w with
        ⟨⟨fault | r₁, s₁⟩, w₁⟩
      all_goals
        rw [hrun] at hload
        cases hload
      obtain ⟨horderly, -, hroot⟩ := (hreads deeper).ok r s₁ w₁ hrun
      -- giving up what was held concerns the heap only
      have hsame : Build.Moved w₁ { w₁ with
          heap := s₁.held.foldl Heap.release (w₁.heap.retainAll r.toList) } := ⟨.refl _ _, rfl⟩
      have hclosed := horderly.closed.moved hsame
      have hnodup : (s₁.finished.map Prod.fst).Nodup := (List.nodup_append.mp horderly.once).2.1
      rcases hclosed.reaches hroot hreach with rfl | hmem
      · refine ⟨by omega, fun hcycle => ?_⟩
        obtain ⟨m, hfirst, -⟩ := TransGen.head'_iff.mp hcycle
        exact hfirst.nonzero rfl
      · have hlt := (horderly.inside n (List.mem_append_right _ hmem)).2
        exact ⟨by omega, hclosed.acyclic hnodup hmem⟩

/-- An array that holds one string twice. -/
def Graph.sharedString : Graph where
  root := 2
  nodes := [default, { (default : GraphNode) with
      typeKey := ObjectClass.string.key, text := some "once" },
    { (default : GraphNode) with typeKey := ObjectClass.array.key, data := [1, 1] }]
  tensors := []
  attrs := []

/-- A node that is shared is read once, and the graph is loaded. -/
theorem loadGraph_follows_no_cycle_shared :
    ∃ r w', loadGraph Graph.sharedString (World.initial : World Unit) = (.ok r, w') ∧
      ∀ n, ReflTransGen (Follows w' Graph.sharedString.nodes) 2 n →
        n < 3 ∧ ¬ TransGen (Follows w' Graph.sharedString.nodes) n n := by
  have hload : (loadGraph Graph.sharedString (World.initial : World Unit)).1 = .ok (some ⟨1⟩) := by
    unfold loadGraph
    rw [show Graph.sharedString.nodes.length = 2 + 1 from rfl, Loading.resolve_succ,
      Loading.resolve_succ]
    rfl
  obtain ⟨-, -, hacyclic⟩ := loadGraph_follows_no_cycle Graph.sharedString
    (World.initial : World Unit) (fun _ => pure none)
  exact ⟨_, _, Prod.ext hload rfl, hacyclic _ _ (Prod.ext hload rfl)⟩

end ObjectRuntime

import ObjectRuntime.Proofs.Lists
import ObjectRuntime.Proofs.NameTable
import ObjectRuntime.Proofs.Reflection.Following
set_option autoImplicit false

/-!
# Reading one node after another

Loading takes note of each node before it reads it, and finishes what a node follows before the node
itself (`Loading.Orderly`).  `Loading.Reads` says of a part of loading that it keeps this, and that it
ends alike however deeper nodes are dealt with, as long as these are dealt with alike.
-/

namespace ObjectRuntime.Loading

open Build (Aside Moved aside_pure aside_fail aside_ofRun aside_make covers_all ofRun_eq_ok)

variable {κ α β : Type} {w w' w'' : World κ} {nodes : List GraphNode} {s s' s'' : BuildState}
  {path : List Nat} {n m : Nat} {g : GraphNode}

/-! ## What holds while nodes are read -/

/-- The nodes whose reading has begun: those on the path to the current one, and those that are
finished. -/
def begun (s : BuildState) : List Nat := s.path ++ s.finished.map Prod.fst

/-- The node need not be read any more. -/
def Done (s : BuildState) (n : Nat) : Prop := n = 0 ∨ n ∈ s.finished.map Prod.fst

/-- No reading has begun twice, only nodes of the graph are read, and what is finished follows only
what was finished before. -/
structure Orderly (nodes : List GraphNode) (path : List Nat) (s : BuildState) (w : World κ) :
    Prop where
  path : s.path = path
  once : (begun s).Nodup
  inside : ∀ n ∈ begun s, n ≠ 0 ∧ n < nodes.length
  closed : Closed w nodes (s.finished.map Prod.fst)

/-- What is finished stays finished. -/
structure Onwards (s : BuildState) (w : World κ) (s' : BuildState) (w' : World κ) : Prop where
  moved : Moved w w'
  finished : s.finished.map Prod.fst ⊆ s'.finished.map Prod.fst

theorem Onwards.refl (s : BuildState) (w : World κ) : Onwards s w s w :=
  ⟨.refl _ w, List.Subset.refl _⟩

theorem Onwards.trans (h : Onwards s w s' w') (h' : Onwards s' w' s'' w'') :
    Onwards s w s'' w'' :=
  ⟨h.moved.trans h'.moved, List.Subset.trans h.finished h'.finished⟩

theorem Done.onwards (h : Done s n) (honwards : Onwards s w s' w') : Done s' n :=
  h.imp_right fun hmem => honwards.finished hmem

/-- Two ways of reading, which may differ in what they do about deeper nodes, end alike.  No node is
read twice even if they fail, and if they succeed everything is in order again. -/
structure Reads (nodes : List GraphNode) (path : List Nat) (s : BuildState) (w : World κ)
    (x y : Build κ α) (post : α → BuildState → World κ → Prop) : Prop where
  agree : y s w = x s w
  once : (begun (x s w).1.2).Nodup
  ok : ∀ a s' w', x s w = ((.ok a, s'), w') →
    Orderly nodes path s' w' ∧ Onwards s w s' w' ∧ post a s' w'

variable {post : α → BuildState → World κ → Prop} {post' : β → BuildState → World κ → Prop}

/-- What follows no references changes nothing. -/
theorem reads_aside {x : Build κ α} (hx : Aside x) (h : Orderly nodes path s w) :
    Reads nodes path s w x x fun a s' w' => x s w = ((.ok a, s'), w') := by
  have hpath := hx.path s w
  have hfinished := hx.finished s w
  have hmoved := hx.moved s w
  have hbegun : begun (x s w).1.2 = begun s := by rw [begun, begun, hpath, hfinished]
  refine ⟨rfl, hbegun ▸ h.once, fun a s' w' hrun => ?_⟩
  rw [hrun] at hpath hfinished hmoved hbegun
  refine ⟨⟨hpath.trans h.path, hbegun ▸ h.once, hbegun ▸ h.inside, ?_⟩, ⟨hmoved, ?_⟩, hrun⟩
  · rw [hfinished]
    exact h.closed.moved hmoved
  · rw [hfinished]
    exact List.Subset.refl _

theorem Reads.imp {x y : Build κ α} {post' : α → BuildState → World κ → Prop}
    (h : Reads nodes path s w x y post)
    (himp : ∀ a s' w', Onwards s w s' w' → post a s' w' → post' a s' w') :
    Reads nodes path s w x y post' := by
  refine ⟨h.agree, h.once, fun a s' w' hrun => ?_⟩
  obtain ⟨horderly, honwards, hpost⟩ := h.ok a s' w' hrun
  exact ⟨horderly, honwards, himp a s' w' honwards hpost⟩

theorem Reads.bind {x y : Build κ α} {f f' : α → Build κ β}
    (hx : Reads nodes path s w x y post)
    (hf : ∀ a s' w', Orderly nodes path s' w' → Onwards s w s' w' → post a s' w' →
      Reads nodes path s' w' (f a) (f' a) post') :
    Reads nodes path s w (x >>= f) (y >>= f') post' := by
  have hagree := hx.agree
  have honce := hx.once
  rcases hrun : x s w with ⟨⟨fault | a, s₁⟩, w₁⟩
  all_goals rw [hrun] at hagree honce
  · refine ⟨?_, ?_, fun b s' w' h => ?_⟩
    · rw [Build.bind_of_error hrun, Build.bind_of_error hagree]
    · rw [Build.bind_of_error hrun]
      exact honce
    · rw [Build.bind_of_error hrun] at h
      cases h
  · obtain ⟨horderly, honwards, hpost⟩ := hx.ok a s₁ w₁ hrun
    obtain ⟨hagree', honce', hok⟩ := hf a s₁ w₁ horderly honwards hpost
    refine ⟨?_, ?_, fun b s' w' h => ?_⟩
    · rw [Build.bind_of_ok hrun, Build.bind_of_ok hagree, hagree']
    · rw [Build.bind_of_ok hrun]
      exact honce'
    · rw [Build.bind_of_ok hrun] at h
      obtain ⟨horderly', honwards', hpost'⟩ := hok b s' w' h
      exact ⟨horderly', honwards.trans honwards', hpost'⟩

theorem Reads.blame {x y : Build κ α} (h : Reads nodes path s w x y post) (typeKey key : String) :
    Reads nodes path s w (Build.blame typeKey key x) (Build.blame typeKey key y) post := by
  obtain ⟨hagree, honce, hok⟩ := h
  have hsame : Build.blame typeKey key y s w = Build.blame typeKey key x s w := by
    simp only [Build.blame, hagree]
  rcases hrun : x s w with ⟨⟨(cause | cause) | a, s₁⟩, w₁⟩
  all_goals rw [hrun] at honce
  · have hbody : Build.blame typeKey key x s w =
        ((.error (.error (.attrConversion typeKey key cause)), s₁), w₁) := by
      simp only [Build.blame, hrun]
    refine ⟨hsame, by rw [hbody]; exact honce, fun a s' w' h => ?_⟩
    rw [hbody] at h
    cases h
  all_goals
    have hbody : Build.blame typeKey key x s w = x s w := by simp only [Build.blame, hrun]
    refine ⟨hsame, by rw [hbody, hrun]; exact honce, fun a s' w' h => ?_⟩
    exact hok a s' w' (hbody ▸ h)

/-- What is done for each element of a list is true of all of them in the end. -/
theorem reads_mapM {f f' : α → Build κ β} {as : List α} (rel : α → BuildState → Prop)
    (h : Orderly nodes path s w)
    (hf : ∀ a ∈ as, ∀ s w, Orderly nodes path s w →
      Reads nodes path s w (f a) (f' a) fun _ s' _ => rel a s')
    (hrel : ∀ a s w s' w', Onwards (κ := κ) s w s' w' → rel a s → rel a s') :
    Reads nodes path s w (as.mapM f) (as.mapM f') fun _ s' _ => ∀ a ∈ as, rel a s' := by
  induction as generalizing s w with
  | nil => exact (reads_aside (aside_pure _) h).imp fun _ _ _ _ _ _ ha => nomatch ha
  | cons a as ih =>
      obtain ⟨ha, has⟩ := List.forall_mem_cons.mp hf
      rw [List.mapM_cons, List.mapM_cons]
      refine (ha s w h).bind fun b s₁ w₁ h₁ _ hrel₁ => ?_
      refine (ih h₁ has).bind fun bs s₂ w₂ h₂ honwards₂ hrest => ?_
      refine (reads_aside (aside_pure _) h₂).imp fun _ s₃ w₃ honwards₃ _ => ?_
      refine List.forall_mem_cons.mpr ⟨?_, fun a' ha' => ?_⟩
      · exact hrel a _ _ _ _ (honwards₂.trans honwards₃) hrel₁
      · exact hrel a' _ _ _ _ honwards₃ (hrest a' ha')

/-! ## Reading a node -/

/-- Whatever reference is followed, the two ways of doing it end alike. -/
def ReadsEach (nodes : List GraphNode) (path : List Nat) (deeper deeper' : Nat → Build κ Ref) :
    Prop :=
  ∀ m s w, Orderly nodes path s w →
    Reads nodes path s w (deeper m) (deeper' m) fun _ s' _ => Done s' m

variable {deeper deeper' : Nat → Build κ Ref}

/-- The number in the text of an attribute is followed if its type admits nothing. -/
def FollowsText (t : ValueType) (text : String) (s : BuildState) : Prop :=
  t.acceptsNull = true → ∀ m, IntKind.usize.parse text = .ok m → Done s m.val.toNat

theorem FollowsText.onwards {t : ValueType} {text : String} (h : FollowsText t text s)
    (honwards : Onwards s w s' w') : FollowsText t text s' :=
  fun hadmits m hm => (h hadmits m hm).onwards honwards

theorem reads_fieldOf (hdeeper : ReadsEach nodes path deeper deeper') (t : ValueType)
    (text : String) (h : Orderly nodes path s w) :
    Reads nodes path s w (fieldOf deeper t text) (fieldOf deeper' t text)
      fun _ s' _ => FollowsText t text s' := by
  unfold fieldOf
  split
  · split
    · rename_i hnumber
      refine (reads_aside (aside_fail _) h).imp fun a s' w' _ hrun => ?_
      cases hrun
    · rename_i n hnumber
      refine (hdeeper _ s w h).bind fun r s₁ w₁ h₁ _ hdone => ?_
      have htravel := Run.advances_travel (κ := κ) covers_all r false
      refine (reads_aside ((aside_ofRun htravel).bind fun v => Build.aside_fieldOf t v) h₁).imp
        fun _ s₂ w₂ honwards _ _ m hm => ?_
      obtain rfl : n = m := Except.ok.inj (hnumber.symm.trans hm)
      exact hdone.onwards honwards
  · rename_i hadmits
    exact (reads_aside (aside_firstAccepted t _) h).imp fun _ _ _ _ _ hadmits' =>
      absurd hadmits' hadmits

theorem reads_fieldsOf (hdeeper : ReadsEach nodes path deeper deeper') (typeKey : String) :
    ∀ (fields : List Field) (given : List (String × String)) {s : BuildState} {w : World κ},
      Orderly nodes path s w →
      Reads nodes path s w (Build.fieldsOf typeKey (fieldOf deeper) fields given)
        (Build.fieldsOf typeKey (fieldOf deeper') fields given)
        fun _ s' _ => ∀ f ∈ fields, ∃ text, given.lookup f.key = some text ∧
          FollowsText f.type text s'
  | [], given, s, w, h => by
      unfold Build.fieldsOf
      split
      · refine (reads_aside (aside_fail _) h).imp fun _ _ _ _ hrun => ?_
        cases hrun
      · exact (reads_aside (aside_pure _) h).imp fun _ _ _ _ _ _ hf => nomatch hf
  | f :: fs, given, s, w, h => by
      unfold Build.fieldsOf
      split
      · refine (reads_aside (aside_fail _) h).imp fun _ _ _ _ hrun => ?_
        cases hrun
      · rename_i text hgiven
        refine ((reads_fieldOf hdeeper f.type text h).blame typeKey f.key).bind
          fun v s₁ w₁ h₁ _ htext => ?_
        refine (reads_fieldsOf hdeeper typeKey fs _ h₁).bind fun vs s₂ w₂ h₂ honwards₂ hrest => ?_
        refine (reads_aside (aside_pure _) h₂).imp fun _ s₃ w₃ honwards₃ _ => ?_
        refine List.forall_mem_cons.mpr ⟨?_, fun f' hf' => ?_⟩
        · exact ⟨text, hgiven, htext.onwards (honwards₂.trans honwards₃)⟩
        · -- what is given under the key of `f` is not there for the fields after it
          obtain ⟨text', hgiven', htext'⟩ := hrest f' hf'
          have hother : given.lookup f'.key = some text' := NameTable.lookup_of_erase hgiven'
          exact ⟨text', hother, htext'.onwards honwards₃⟩

/-- The node follows only what is done by now, and that cannot change any more. -/
def FollowsDone (nodes : List GraphNode) (n : Nat) (s : BuildState) (w : World κ) : Prop :=
  Settled w nodes n ∧ ∀ m, Follows w nodes n m → Done s m

/-- A node that says itself what it is made of follows at most its list. -/
theorem followsDone_of_own (hnode : nodes[n]? = some g) (hkey : g.typeKey ∈ ownKeys)
    (hlist : g.typeKey = ObjectClass.array.key ∨ g.typeKey = ObjectClass.map.key →
      ∀ m ∈ g.data, Done s m) : FollowsDone nodes n s w := by
  refine ⟨fun g' hnode' hkey' => ?_, fun m hm => ?_⟩
  · obtain rfl := Option.some.inj (hnode.symm.trans hnode')
    exact absurd hkey hkey'
  · cases hm with
    | element nonzero node key listed =>
        obtain rfl := Option.some.inj (hnode.symm.trans node)
        exact hlist key m listed
    | attr nonzero node key =>
        obtain rfl := Option.some.inj (hnode.symm.trans node)
        exact absurd hkey key

/-- A node of a type that neither lists nor reflects follows nothing. -/
theorem reads_leaf {key : String} {x : Build κ Ref} (hx : Aside x) (h : Orderly nodes path s w)
    (hnode : nodes[n]? = some g) (hkey : g.typeKey = key) (hown : key ∈ ownKeys)
    (hleaf : key ≠ ObjectClass.array.key ∧ key ≠ ObjectClass.map.key) :
    Reads nodes path s w x x fun _ s' w' => FollowsDone nodes n s' w' := by
  refine (reads_aside hx h).imp fun _ s' w' _ _ => ?_
  refine followsDone_of_own hnode (hkey ▸ hown) fun hlists => ?_
  rw [hkey] at hlists
  exact absurd hlists (not_or.mpr hleaf)

theorem reads_entry {key key' value value' : Build κ Ref} {P Q : BuildState → Prop}
    (hkey : Reads nodes path s w key key' fun _ s' _ => P s')
    (hvalue : ∀ s w, Orderly nodes path s w → Reads nodes path s w value value' fun _ s' _ => Q s')
    (hP : ∀ s w s' w', Onwards (κ := κ) s w s' w' → P s → P s')
    (hQ : ∀ s w s' w', Onwards (κ := κ) s w s' w' → Q s → Q s') :
    Reads nodes path s w (entry key value) (entry key' value') fun _ s' _ => P s' ∧ Q s' := by
  refine hkey.bind fun k s₁ w₁ h₁ _ hk => ?_
  refine (hvalue s₁ w₁ h₁).bind fun v s₂ w₂ h₂ honwards₂ hv => ?_
  have hask := Run.advances_askKey (κ := κ) covers_all k
  refine (reads_aside ((aside_ofRun hask).bind fun _ => aside_pure _) h₂).imp
    fun _ s₃ w₃ honwards₃ _ => ?_
  exact ⟨hP _ _ _ _ (honwards₂.trans honwards₃) hk, hQ _ _ _ _ honwards₃ hv⟩

/-- If their number is even, all elements are in pairs. -/
theorem mem_pairs : ∀ {ms : List Nat} {m : Nat}, ms.length % 2 = 0 → m ∈ ms →
    ∃ p ∈ pairs ms, m = p.1 ∨ m = p.2
  | [], _, _, hm => nomatch hm
  | [_], _, heven, _ => nomatch heven
  | a :: b :: rest, m, heven, hm => by
      rcases List.mem_cons.mp hm with rfl | hm
      · exact ⟨(m, b), List.mem_cons_self, .inl rfl⟩
      rcases List.mem_cons.mp hm with rfl | hm
      · exact ⟨(a, m), List.mem_cons_self, .inr rfl⟩
      · have hrest : rest.length % 2 = 0 := by
          rw [List.length_cons, List.length_cons] at heven
          omega
        obtain ⟨p, hp, hmem⟩ := mem_pairs hrest hm
        exact ⟨p, List.mem_cons_of_mem _ hp, hmem⟩

theorem reads_map (hdeeper : ReadsEach nodes path deeper deeper') (h : Orderly nodes path s w)
    (hnode : nodes[n]? = some g) (hkey : g.typeKey = ObjectClass.map.key) :
    Reads nodes path s w (object deeper n g) (object deeper' n g)
      fun _ s' w' => FollowsDone nodes n s' w' := by
  have hown : g.typeKey ∈ ownKeys := by
    rw [hkey]
    decide
  have hobject : ∀ resolve : Nat → Build κ Ref, object resolve n g =
      if !g.keys.isEmpty then
        if g.keys.length ≠ g.data.length then
          malformed (.keyCount n g.keys.length g.data.length)
        else (g.keys.zip g.data).mapM (fun e => entry (string e.1) (resolve e.2)) >>= map
      else if g.data.length % 2 ≠ 0 then malformed (.oddEntries n)
      else (pairs g.data).mapM (fun e => entry (resolve e.1) (resolve e.2)) >>= map := by
    intro resolve
    unfold object
    rw [hkey, if_neg (by decide), if_neg (by decide), if_neg (by decide), if_pos rfl]
  have hdone : ∀ m s w s' w', Onwards (κ := κ) s w s' w' → Done s m → Done s' m :=
    fun _ _ _ _ _ honwards hdone => hdone.onwards honwards
  rw [hobject, hobject]
  split
  · split
    · refine (reads_aside (aside_fail _) h).imp fun _ _ _ _ hrun => ?_
      cases hrun
    · rename_i hlength
      refine (reads_mapM (fun e s => True ∧ Done s e.2) h (fun e _ s₁ w₁ h₁ => ?_) ?_).bind
        fun entries s₁ w₁ h₁ _ hall => ?_
      · refine reads_entry (P := fun _ => True) ?_ (fun s w hs => hdeeper e.2 s w hs)
          (fun _ _ _ _ _ _ => trivial) (hdone e.2)
        exact (reads_aside (aside_make _ _) h₁).imp fun _ _ _ _ _ => trivial
      · exact fun e _ _ _ _ honwards hdone => ⟨trivial, hdone.2.onwards honwards⟩
      · refine (reads_aside (aside_map entries) h₁).imp fun _ s₂ w₂ honwards₂ _ => ?_
        refine followsDone_of_own hnode hown fun _ m hm => ?_
        obtain ⟨i, hi, rfl⟩ := List.mem_iff_getElem.mp hm
        have hikey : i < g.keys.length := by omega
        exact (hall _ (getElem_mem_zip hikey hi)).2.onwards honwards₂
  · split
    · refine (reads_aside (aside_fail _) h).imp fun _ _ _ _ hrun => ?_
      cases hrun
    · rename_i heven
      refine (reads_mapM (fun e s => Done s e.1 ∧ Done s e.2) h (fun e _ s₁ w₁ h₁ => ?_)
        ?_).bind fun entries s₁ w₁ h₁ _ hall => ?_
      · exact reads_entry (hdeeper e.1 s₁ w₁ h₁) (fun s w hs => hdeeper e.2 s w hs)
          (hdone e.1) (hdone e.2)
      · exact fun e _ _ _ _ honwards hdone =>
          ⟨hdone.1.onwards honwards, hdone.2.onwards honwards⟩
      · refine (reads_aside (aside_map entries) h₁).imp fun _ s₂ w₂ honwards₂ _ => ?_
        refine followsDone_of_own hnode hown fun _ m hm => ?_
        obtain ⟨e, he, hmem⟩ := mem_pairs (not_not.mp heven) hm
        obtain ⟨hfirst, hsecond⟩ := hall e he
        rcases hmem with rfl | rfl
        · exact hfirst.onwards honwards₂
        · exact hsecond.onwards honwards₂

/-- The attributes of a reflected class are read as its schema says. -/
theorem reads_reflected (hdeeper : ReadsEach nodes path deeper deeper') (h : Orderly nodes path s w)
    (hnode : nodes[n]? = some g) (hkey : g.typeKey ∉ ownKeys) :
    Reads nodes path s w (Build.object g.typeKey (fieldOf deeper) g.attrs)
      (Build.object g.typeKey (fieldOf deeper') g.attrs)
      fun _ s' w' => FollowsDone nodes n s' w' := by
  have hquery : Aside (Build.ofRun (Run.query (κ := κ) (·.types.indexOf g.typeKey))) :=
    aside_ofRun (Run.advances_query _)
  refine (reads_aside hquery h).bind fun index s₁ w₁ h₁ _ hindex => ?_
  have hknown : w₁.types.index? g.typeKey = some index := by
    obtain ⟨hindexOf, rfl⟩ := Run.ofExcept_eq_ok.mp (ofRun_eq_ok.mp hindex).1
    cases hlookup : w₁.types.index? g.typeKey with
    | none => simp [TypeTable.indexOf, hlookup] at hindexOf
    | some i => simpa [TypeTable.indexOf, hlookup] using hindexOf
  refine (reads_aside (aside_ofRun (Run.advances_useReflection covers_all)) h₁).bind
    fun _ s₂ w₂ h₂ honwards₂ huse => ?_
  have hboxes : w₂.Reflecting := reflecting_of_useReflection (ofRun_eq_ok.mp huse).1
  refine (reads_aside Build.aside_world h₂).bind fun w₃ s₃ w₃' h₃ _ hworld => ?_
  cases hworld
  split
  · refine (reads_aside (aside_fail _) h₃).imp fun _ _ _ _ hrun => ?_
    cases hrun
  · rename_i schema hschema
    refine (reads_fieldsOf hdeeper g.typeKey schema.visible g.attrs h₃).bind
      fun values s₄ w₄ h₄ honwards₄ hfields => ?_
    refine (reads_aside (aside_make _ _) h₄).imp fun _ s₅ w₅ honwards₅ _ => ?_
    have hmoved := honwards₄.moved.trans honwards₅.moved
    have hindex₂ := honwards₂.moved.types.index? hknown
    have hsettled : Settled w₂ nodes n := by
      intro g' hnode' _
      obtain rfl := Option.some.inj (hnode.symm.trans hnode')
      exact ⟨⟨index, hindex₂⟩, hboxes⟩
    refine ⟨hsettled.moved hmoved, fun m hm => ?_⟩
    cases hsettled.follows hmoved hm with
    | element nonzero node key listed =>
        obtain rfl := Option.some.inj (hnode.symm.trans node)
        refine absurd ?_ hkey
        rcases key with key | key
        all_goals
          rw [key]
          decide
    | attr nonzero node key known reflected field admits given number =>
        obtain rfl := Option.some.inj (hnode.symm.trans node)
        obtain rfl := Option.some.inj (hindex₂.symm.trans known)
        obtain rfl := Option.some.inj (hschema.symm.trans reflected)
        obtain ⟨text, hgiven, htext⟩ := hfields _ field
        obtain rfl := Option.some.inj (hgiven.symm.trans given)
        exact (htext admits _ number).onwards honwards₅

/-- When a node has been read, whatever it follows is done. -/
theorem reads_object (hdeeper : ReadsEach nodes path deeper deeper') (h : Orderly nodes path s w)
    (hnode : nodes[n]? = some g) :
    Reads nodes path s w (object deeper n g) (object deeper' n g)
      fun _ s' w' => FollowsDone nodes n s' w' := by
  by_cases hmap : g.typeKey = ObjectClass.map.key
  · exact reads_map hdeeper h hnode hmap
  unfold object
  split_ifs with hstring hshape harray htensor
  · refine reads_leaf ?_ h hnode hstring (by decide) (by decide)
    exact (aside_required _ _ _).bind fun text => aside_make _ _
  · refine reads_leaf ?_ h hnode hshape (by decide) (by decide)
    refine (aside_required _ _ _).bind fun text => ?_
    split
    · exact aside_make _ _
    · exact aside_fail _
  · have hall : Reads nodes path s w (g.data.mapM deeper) (g.data.mapM deeper') _ :=
      reads_mapM (fun m s => Done s m) h (fun m _ s w hs => hdeeper m s w hs)
        fun m _ _ _ _ honwards hdone => hdone.onwards honwards
    refine hall.bind fun elems s₁ w₁ h₁ _ hdone => ?_
    refine (reads_aside (aside_make _ _) h₁).imp fun _ s₂ w₂ honwards₂ _ => ?_
    have hown : g.typeKey ∈ ownKeys := by
      rw [harray]
      decide
    exact followsDone_of_own hnode hown fun _ m hm => (hdone m hm).onwards honwards₂
  · refine reads_leaf ?_ h hnode htensor (by decide) (by decide)
    refine (aside_required _ _ _).bind fun text => ?_
    split
    · exact Build.aside_holding ((Run.advances_loadTensor trivial _).map _)
    · exact aside_fail _
  · refine reads_reflected hdeeper h hnode ?_
    simp only [ownKeys, List.map_cons, List.map_nil, List.mem_cons, List.not_mem_nil, or_false,
      not_or]
    exact ⟨hstring, hshape, harray, hmap, htensor⟩

end ObjectRuntime.Loading

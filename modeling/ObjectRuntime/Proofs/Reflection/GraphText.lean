import ObjectRuntime.Proofs.Text.Json
import ObjectRuntime.Reflection.Graph
set_option autoImplicit false

/-!
# Graphs are read as they are written

A graph is read back from its text if its numbers fit into 64 bits and its attributes are in order
(`Graph.parse_toText`).
-/

namespace ObjectRuntime

open Json (Reads Puts Member fieldLine)

namespace Json

variable {α σ : Type} {read : Step α} {text name : String} {a : α} {members : List (Member σ)}
  {given known : List String} {r r₁ r₂ : σ} {m : Member σ} {fields : List (String × Json)}

/-! ## Written values -/

theorem writeElements_eq (level : Nat) (elems : List Json) :
    writeElements level elems = elems.map (write level) := by
  induction elems with
  | nil => rfl
  | cons v elems ih => rw [writeElements, ih, List.map_cons]

/-- The names and texts of fields. -/
def fieldTexts (level : Nat) (fields : List (String × Json)) : List (String × String) :=
  fields.map fun f => (f.1, write level f.2)

theorem writeFields_eq (level : Nat) (fields : List (String × Json)) :
    writeFields level fields = (fieldTexts level fields).map fieldLine := by
  induction fields with
  | nil => rfl
  | cons f fields ih =>
      rw [writeFields, ih]
      rfl

theorem write_array (level : Nat) (elems : List Json) :
    write level (.array elems) = enclose level "[" "]" (elems.map (write (level + 1))) := by
  rw [write, writeElements_eq]

theorem write_object (level : Nat) (fields : List (String × Json)) :
    write level (.object fields) =
      enclose level "\x7b" "\x7d" ((fieldTexts (level + 1) fields).map fieldLine) := by
  rw [write, writeFields_eq]

/-- An object is read as a record if its fields are put into the record. -/
theorem reads_object (title : String) (level : Nat) {field : String × Json}
    {fields : List (String × Json)} {r r' : σ}
    (h : Puts members [] r (fieldTexts (level + 1) (field :: fields)) r')
    (hrequired : ∀ m ∈ members, m.required = true → m.name ∈ (field :: fields).map Prod.fst) :
    Reads (readRecord title members r) (write level (.object (field :: fields))) r' := by
  have hnames : (fieldTexts (level + 1) (field :: fields)).map Prod.fst =
      (field :: fields).map Prod.fst := by
    rw [fieldTexts, List.map_map]
    rfl
  rw [write_object]
  exact reads_record title level h fun m hm hneeded => hnames ▸ hrequired m hm hneeded

/-! ## Fields that may be left out -/

theorem optionalField_eq (name : String) (text : Option String) :
    Graph.optionalField name text =
      Graph.fieldUnless text.isNone name (.text (text.getD "")) := by
  cases text <;> rfl

/-- A field is read into the record as its value is read. -/
theorem Reads.member (h : Reads read text a) (required : Bool) (put : σ → α → σ) (r : σ) :
    Reads ((Member.of name required read put).read r) text (put r a) where
  starts := h.starts
  reads blanks rest hblanks hrest := by
    simp only [Member.of, h.reads blanks rest hblanks hrest]
    rfl

/-- A field is put into the record, or left out if that makes no difference. -/
theorem puts_unless {level : Nat} {skip : Bool} {j : Json} (hgiven : given ⊆ known)
    (hnew : name ∉ known) (hmember : members.find? (fun m => m.name == name) = some m)
    (hput : skip = false → Reads (m.read r) (write level j) r₁) (hskip : skip = true → r = r₁)
    (hrest : ∀ given', given' ⊆ name :: known →
      Puts members given' r₁ (fieldTexts level fields) r₂) :
    Puts members given r (fieldTexts level (Graph.fieldUnless skip name j ++ fields)) r₂ := by
  cases skip with
  | true =>
      rw [hskip rfl]
      exact hrest given (List.subset_cons_of_subset name hgiven)
  | false =>
      exact .cons hmember (fun hmem => hnew (hgiven hmem)) (hput rfl)
        (hrest _ (List.cons_subset_cons name hgiven))

end Json

namespace Graph

open Json

/-- The texts are in the order of their names, and no name occurs twice. -/
def Tidy (texts : List (String × String)) : Prop :=
  NameTable.sorted (NameTable.ofList texts) = texts

theorem tidy_nil : Tidy [] := by simp [Tidy, NameTable.sorted, NameTable.ofList]

theorem tidy_singleton (text : String × String) : Tidy [text] := by
  simp [Tidy, NameTable.sorted, NameTable.ofList, NameTable.put]

/-- A node whose numbers fit into 64 bits and whose attributes are in order. -/
structure Legible (n : GraphNode) : Prop where
  attrs : Tidy n.attrs
  data : ∀ i ∈ n.data, i < 2 ^ 64

theorem reads_texts (level : Nat) {texts : List (String × String)} (h : Tidy texts) :
    Reads readTexts (write level (writeTexts texts)) texts := by
  have hfields : fieldTexts (level + 1) (texts.map fun e => (e.1, Json.text e.2)) =
      texts.map fun e => (e.1, quote e.2) := by
    simp only [fieldTexts, List.map_map]
    rfl
  have hentries := reads_entries level texts
  rw [writeTexts, write_object, hfields, List.map_map]
  refine ⟨hentries.starts, fun blanks rest hblanks hrest => ?_⟩
  have hread := hentries.reads blanks rest hblanks hrest
  simp only [Function.comp_def, readTexts] at hread ⊢
  rw [hread]
  simp only [Except.map]
  rw [h]

theorem reads_list_of_forall {α : Type} {read : Step α} {write' : α → Json} {as : List α}
    (level : Nat) (h : ∀ a ∈ as, Reads read (write (level + 1) (write' a)) a) :
    Reads (readList read) (write level (.array (as.map write'))) as := by
  rw [write_array, List.map_map]
  refine reads_list level ?_
  induction as with
  | nil => exact .nil
  | cons a as ih =>
      obtain ⟨ha, has⟩ := List.forall_mem_cons.mp h
      exact .cons ha (ih has)

theorem reads_optional {text : Option String} (h : text.isNone = false) (level : Nat) :
    Reads readOptionalText (write level (.text (text.getD ""))) text := by
  cases text with
  | none => cases h
  | some s => exact reads_optionalText s

theorem reads_node (level : Nat) {n : GraphNode} (h : Legible n) :
    Reads readNode (write level (writeNode n)) n := by
  have hnumbers : Reads (readList readIndex) (write (level + 1) (.array (n.data.map .natural)))
      n.data := reads_list_of_forall _ fun i hi => reads_natural (h.data i hi) "usize"
  have htexts : Reads (readList Json.readText) (write (level + 1) (.array (n.keys.map .text))) n.keys :=
    reads_list_of_forall _ fun s _ => reads_text s
  have hattrs := reads_texts (level + 1) h.attrs
  have hfields : writeNode n = .object (("type_key", .text n.typeKey) ::
      (fieldUnless n.attrs.isEmpty "attrs" (writeTexts n.attrs) ++
        (fieldUnless n.keys.isEmpty "keys" (.array (n.keys.map .text)) ++
          (fieldUnless n.data.isEmpty "data" (.array (n.data.map .natural)) ++
            (fieldUnless n.text.isNone "repr_str" (.text (n.text.getD "")) ++
              (fieldUnless n.base64.isNone "repr_b64" (.text (n.base64.getD "")) ++ [])))))) := by
    simp [writeNode, optionalField_eq, field]
  rw [hfields]
  refine reads_object "struct JsonNode" level ?_ ?_
  · refine .cons rfl List.not_mem_nil ((reads_text n.typeKey).member true _ _) ?_
    refine puts_unless (show _ ⊆ ["type_key"] from List.Subset.refl _) (by decide) rfl
      (fun _ => hattrs.member false (fun (n : GraphNode) es => { n with attrs := es }) _)
      (fun hskip => by rw [List.isEmpty_iff.mp hskip]; rfl) fun _ h₁ => ?_
    refine puts_unless h₁ (by decide) rfl
      (fun _ => htexts.member false (fun (n : GraphNode) ks => { n with keys := ks }) _)
      (fun hskip => by rw [List.isEmpty_iff.mp hskip]; rfl) fun _ h₂ => ?_
    refine puts_unless h₂ (by decide) rfl
      (fun _ => hnumbers.member false (fun (n : GraphNode) is => { n with data := is }) _)
      (fun hskip => by rw [List.isEmpty_iff.mp hskip]; rfl) fun _ h₃ => ?_
    refine puts_unless h₃ (by decide) rfl
      (fun hthere => (reads_optional hthere _).member false (fun (n : GraphNode) s => { n with text := s }) _)
      (fun hskip => by rw [Option.isNone_iff_eq_none.mp hskip]; rfl) fun _ h₄ => ?_
    exact puts_unless h₄ (by decide) rfl
      (fun hthere => (reads_optional hthere _).member false (fun (n : GraphNode) s => { n with base64 := s }) _)
      (fun hskip => by rw [Option.isNone_iff_eq_none.mp hskip]; rfl) fun _ _ => .nil
  · intro m hm hneeded
    have hname : ∀ m ∈ nodeMembers, m.required = true → m.name = "type_key" := by
      simp [nodeMembers, Member.of]
    rw [hname m hm hneeded]
    exact List.mem_cons_self

/-- A graph is read back from its text. -/
theorem parse_toText {g : Graph} (hroot : g.root < 2 ^ 64) (hnodes : ∀ n ∈ g.nodes, Legible n)
    (hattrs : Tidy g.attrs) : Graph.parse g.toText = .ok g := by
  have hgraph : Reads (readList readNode) (write 1 (.array (g.nodes.map writeNode))) g.nodes :=
    reads_list_of_forall _ fun n hn => reads_node _ (hnodes n hn)
  have htensors : Reads (readList Json.readText) (write 1 (.array (g.tensors.map .text))) g.tensors :=
    reads_list_of_forall _ fun s _ => reads_text s
  refine readAll_of_reads (reads_object "struct JsonGraph" 0 ?_ ?_)
  · exact .cons rfl (by simp) ((reads_natural hroot "usize").member true _ _)
      (.cons rfl (by simp) (hgraph.member true _ _)
        (.cons rfl (by simp) (htensors.member false _ _)
          (.cons rfl (by simp) ((reads_texts 1 hattrs).member false _ _) .nil)))
  · simp [members, Member.of, field]

end Graph

end ObjectRuntime

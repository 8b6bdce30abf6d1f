import ObjectRuntime.Proofs.Lists
import ObjectRuntime.Proofs.Text.Numbers
import ObjectRuntime.Text.Json
import ObjectRuntime.Text.Json.Reading
set_option autoImplicit false

/-!
# JSON texts are read as they are written

`Json.Reads` says that a reader of values reads a value from its text, whatever follows the text
in a document.  Strings and natural numbers are read so, lists if their elements are, and records if
their fields are.
-/

namespace ObjectRuntime.Json

variable {α σ : Type} {read : Step α} {text : String} {a : α} {n : Nat} {s : String} {c d : Char}
  {cs blanks rest : List Char}

/-! ## Blanks -/

theorem next_of_blanks (hblanks : ∀ c ∈ blanks, isBlank c = true) (hc : isBlank c = false)
    (atEnd : Cause) : next atEnd (blanks ++ c :: rest) = .ok (c, rest) := by
  have hskip : skipBlanks (blanks ++ c :: rest) = c :: rest := by
    rw [skipBlanks, List.dropWhile_append_of_pos hblanks]
    simp [hc]
  rw [next, hskip]

theorem blank_of_mem_indent {level : Nat} (hc : c ∈ (indent level).toList) : isBlank c = true := by
  rw [indent, String.toList_ofList] at hc
  rw [(List.mem_replicate.mp hc).2]
  rfl

/-- What follows a value in a document: nothing, a comma or the end of a line. -/
def Ends (rest : List Char) : Prop := ∀ c ∈ rest.head?, c = ',' ∨ c = '\n'

/-- The reader reads the value from the text. -/
structure Reads (read : Step α) (text : String) (a : α) : Prop where
  starts : ∃ c cs, text.toList = c :: cs ∧ isBlank c = false ∧ c ≠ ']'
  reads : ∀ blanks rest, (∀ c ∈ blanks, isBlank c = true) → Ends rest →
    read (blanks ++ text.toList ++ rest) = .ok (a, rest)

/-! ## Strings -/

theorem chars_letter {x : Char} (hc : c ≠ 'u') (hx : unescape? c = some x) (rest : List Char) :
    chars none ('\\' :: c :: rest) = withChar x (chars none rest) := by
  rw [chars.eq_def]
  simp [hc, hx]

theorem chars_unit {a b c d : Char} (hn : unit? a b c d = some n) (hsmall : n < 0x20)
    (rest : List Char) : chars none ('\\' :: 'u' :: a :: b :: c :: d :: rest) =
      withChar (Char.ofNat n) (chars none rest) := by
  have hhigh : isHigh n = false := by
    simp only [isHigh, Bool.and_eq_false_iff, decide_eq_false_iff_not]
    omega
  have hlow : isLow n = false := by
    simp only [isLow, Bool.and_eq_false_iff, decide_eq_false_iff_not]
    omega
  rw [chars.eq_def]
  simp [hn, hhigh, hlow]

theorem unit?_hexChar : ∀ n < 0x20, unit? '0' '0' (hexChar (n / 16)) (hexChar (n % 16)) = some n := by
  decide

/-- A character that is written is read. -/
theorem chars_escape (c : Char) (rest : List Char) :
    chars none (escape c ++ rest) = withChar c (chars none rest) := by
  unfold escape
  split_ifs with hquote hbackslash hb ht hn hf hr hcontrol
  · subst hquote
    exact chars_letter (by decide) rfl rest
  · subst hbackslash
    exact chars_letter (by decide) rfl rest
  · subst hb
    exact chars_letter (by decide) rfl rest
  · subst ht
    exact chars_letter (by decide) rfl rest
  · subst hn
    exact chars_letter (by decide) rfl rest
  · subst hf
    exact chars_letter (by decide) rfl rest
  · subst hr
    exact chars_letter (by decide) rfl rest
  · have hunit := chars_unit (unit?_hexChar c.toNat hcontrol) hcontrol rest
    rwa [Char.ofNat_toNat] at hunit
  · simp [chars, hbackslash, hcontrol]

theorem chars_flatMap_escape (cs rest : List Char) :
    chars none (cs.flatMap escape ++ '"' :: rest) = .ok (cs, rest) := by
  induction cs with
  | nil => simp [chars]
  | cons c cs ih =>
      rw [List.flatMap_cons, List.append_assoc, chars_escape, ih]
      rfl

theorem toList_quote (s : String) :
    (quote s).toList = '"' :: (s.toList.flatMap escape ++ ['"']) := by
  simp [quote]

/-- A string behind its opening quote. -/
theorem chars_quote (s : String) (rest : List Char) :
    chars none (s.toList.flatMap escape ++ ['"'] ++ rest) = .ok (s.toList, rest) := by
  rw [List.append_assoc]
  exact chars_flatMap_escape s.toList rest

theorem found_quote (hblanks : ∀ c ∈ blanks, isBlank c = true) (s : String) (rest : List Char) :
    found (blanks ++ (quote s).toList ++ rest) = .ok (.text s, rest) := by
  rw [toList_quote, List.append_assoc, List.cons_append, found,
    next_of_blanks hblanks (by decide)]
  simp only [bind, Except.bind, chars_quote, String.ofList_toList]
  rfl

theorem reads_text (s : String) : Reads readText (quote s) s where
  starts := ⟨'"', _, toList_quote s, by decide, by decide⟩
  reads blanks rest hblanks _ := by
    rw [readText, found_quote hblanks]
    rfl

theorem reads_optionalText (s : String) : Reads readOptionalText (quote s) (some s) where
  starts := ⟨'"', _, toList_quote s, by decide, by decide⟩
  reads blanks rest hblanks hrest := by
    have htext := (reads_text s).reads [] rest (fun _ hc => nomatch hc) hrest
    have hskip : skipBlanks (blanks ++ (quote s).toList ++ rest) = (quote s).toList ++ rest := by
      rw [toList_quote, skipBlanks, List.append_assoc, List.dropWhile_append_of_pos hblanks]
      rfl
    rw [List.nil_append] at htext
    have hread : readOptionalText (blanks ++ (quote s).toList ++ rest) =
        readText ((quote s).toList ++ rest) >>= fun found => pure (some found.1, found.2) := by
      rw [readOptionalText, hskip, toList_quote]
      rfl
    rw [hread, htext]
    rfl

/-! ## Natural numbers -/

theorem isDigit_of_mem_toDigits (hc : c ∈ Nat.toDigits 10 n) : isDigit c = true := by
  have hdigit := Nat.isDigit_of_mem_toDigits (by decide) (by decide) hc
  simpa [isDigit, Char.isDigit, Char.le_def] using hdigit

/-- A number with more than one digit does not start with a zero. -/
theorem toDigits_eq_cons_zero (h : Nat.toDigits 10 n = '0' :: cs) : n = 0 ∧ cs = [] := by
  induction n using Nat.strongRecOn generalizing cs with
  | ind n ih =>
      rw [Nat.toDigits_eq_if (by decide)] at h
      split at h
      · rename_i hlt
        obtain ⟨hdigit, hrest⟩ := List.cons.inj h
        refine ⟨?_, hrest.symm⟩
        interval_cases n <;> first | rfl | exact absurd hdigit (by decide)
      · rename_i hge
        cases hdigits : Nat.toDigits 10 (n / 10) with
        | nil => exact absurd hdigits Nat.toDigits_ne_nil
        | cons c ds =>
            rw [hdigits] at h
            obtain ⟨rfl, -⟩ := List.cons.inj h
            have := (ih (n / 10) (by omega) hdigits).1
            omega

theorem absorb_append_digit {limit m d : Nat} (h : Numeral.absorb limit n cs = (m, []))
    (hd : d < 10) (hle : m * 10 + d ≤ limit) :
    Numeral.absorb limit n (cs ++ [d.digitChar]) = (m * 10 + d, []) := by
  induction cs generalizing n with
  | nil =>
      cases h
      have hdigit : d.digitChar.toNat - '0'.toNat = d := by
        interval_cases d <;> rfl
      simp only [List.nil_append, Numeral.absorb, hdigit, if_pos hle]
  | cons c cs ih =>
      simp only [Numeral.absorb, List.cons_append] at h ⊢
      split at h
      · rename_i hfits
        rw [if_pos hfits]
        exact ih h
      · cases h

/-- The digits of a number denote the number. -/
theorem absorb_toDigits {limit : Nat} (hn : n ≤ limit) :
    Numeral.absorb limit 0 (Nat.toDigits 10 n) = (n, []) := by
  induction n using Nat.strongRecOn with
  | ind n ih =>
      have hlast : n % 10 < 10 := Nat.mod_lt n (by decide)
      rw [Nat.toDigits_eq_if (by decide)]
      split
      · rename_i hlt
        have hfirst := absorb_append_digit (show Numeral.absorb limit 0 [] = (0, []) from rfl) hlt
          (by omega)
        simpa using hfirst
      · have hsplit : n / 10 * 10 + n % 10 = n := Nat.div_add_mod' n 10
        have happend := absorb_append_digit (ih (n / 10) (by omega) (by omega)) hlast (by omega)
        rwa [hsplit] at happend

/-- What ends a value is no part of a number. -/
theorem Ends.cases (h : Ends rest) :
    rest = [] ∨ (∃ cs, rest = ',' :: cs) ∨ ∃ cs, rest = '\n' :: cs := by
  cases rest with
  | nil => exact .inl rfl
  | cons c cs =>
      rcases h c rfl with rfl | rfl
      · exact .inr (.inl ⟨cs, rfl⟩)
      · exact .inr (.inr ⟨cs, rfl⟩)

theorem wholeDigits_toDigits (h : Ends rest) (n : Nat) (atEnd : Cause) :
    wholeDigits atEnd (Nat.toDigits 10 n ++ rest) = .ok (Nat.toDigits 10 n, rest) := by
  have hspan : (Nat.toDigits 10 n ++ rest).span isDigit = (Nat.toDigits 10 n, rest) := by
    refine span_append (fun _ hc => isDigit_of_mem_toDigits hc) fun c hc => ?_
    rcases h c hc with rfl | rfl <;> rfl
  cases hds : Nat.toDigits 10 n with
  | nil => exact absurd hds Nat.toDigits_ne_nil
  | cons c ds =>
      rw [hds] at hspan
      by_cases hzero : c = '0'
      · subst hzero
        rw [(toDigits_eq_cons_zero hds).2]
        rcases h.cases with rfl | ⟨cs, rfl⟩ | ⟨cs, rfl⟩ <;> rfl
      · have hc : isDigit c = true := isDigit_of_mem_toDigits (hds ▸ List.mem_cons_self)
        have hdigits : wholeDigits atEnd (c :: ds ++ rest) = digits atEnd (c :: ds ++ rest) := by
          simp [wholeDigits, hzero]
        rw [hdigits, List.cons_append, digits, if_pos hc, ← List.cons_append, hspan]

theorem numeral_toDigits (h : Ends rest) (n : Nat) (atEnd : Cause) :
    numeral atEnd (Nat.toDigits 10 n ++ rest) =
      .ok (⟨false, Nat.toDigits 10 n, none, none⟩, rest) := by
  have hfraction : fraction atEnd rest = .ok (none, rest) := by
    rcases h.cases with rfl | ⟨cs, rfl⟩ | ⟨cs, rfl⟩ <;> rfl
  have hexponent : exponent atEnd rest = .ok (none, rest) := by
    rcases h.cases with rfl | ⟨cs, rfl⟩ | ⟨cs, rfl⟩ <;> rfl
  have hwhole := wholeDigits_toDigits h n atEnd
  cases hds : Nat.toDigits 10 n with
  | nil => exact absurd hds Nat.toDigits_ne_nil
  | cons c ds =>
      have hc : isDigit c = true := isDigit_of_mem_toDigits (hds ▸ List.mem_cons_self)
      have hminus : c ≠ '-' := by
        rintro rfl
        cases hc
      rw [hds, List.cons_append] at hwhole
      simp [numeral, hminus, hwhole, hfraction, hexponent, bind, Except.bind]
      rfl

theorem isBlank_of_isDigit (hc : isDigit c = true) : isBlank c = false := by
  have hne : ∀ d, isDigit d = false → c ≠ d := by
    rintro d hd rfl
    exact Bool.false_ne_true (hd.symm.trans hc)
  simp [isBlank, hne ' ' rfl, hne '\n' rfl, hne '\t' rfl, hne '\r' rfl]

theorem found_toDigits (hn : n < 2 ^ 64) (hblanks : ∀ c ∈ blanks, isBlank c = true)
    (hrest : Ends rest) :
    found (blanks ++ Nat.toDigits 10 n ++ rest) = .ok (.integer n, rest) := by
  have hvalue : Numeral.value ⟨false, Nat.toDigits 10 n, none, none⟩ = .ok (.integer n) := by
    have habsorb := absorb_toDigits (show n ≤ Numeral.maxSignificand from Nat.le_of_lt_succ hn)
    simp [Numeral.value, habsorb]
  have hnumber : number (Nat.toDigits 10 n ++ rest) = .ok (.integer n, rest) := by
    rw [number, numeral_toDigits hrest]
    simp only [bind, Except.bind, hvalue]
    rfl
  cases hds : Nat.toDigits 10 n with
  | nil => exact absurd hds Nat.toDigits_ne_nil
  | cons c ds =>
      have hc : isDigit c = true := isDigit_of_mem_toDigits (hds ▸ List.mem_cons_self)
      rw [hds] at hnumber
      rw [List.append_assoc, List.cons_append, found, next_of_blanks hblanks (isBlank_of_isDigit hc)]
      simp only [bind, Except.bind]
      split
      case h_7 =>
          rw [hc, Bool.or_true, if_pos rfl]
          exact hnumber
      all_goals cases hc

theorem toList_toString (n : Nat) : (toString n).toList = Nat.toDigits 10 n := by
  simp [toString, Nat.repr]

/-- A natural number that fits into 64 bits. -/
theorem reads_natural (hn : n < 2 ^ 64) (wanted : String) :
    Reads (readNatural wanted) (toString n) n where
  starts := by
    cases hds : Nat.toDigits 10 n with
    | nil => exact absurd hds Nat.toDigits_ne_nil
    | cons c ds =>
        have hc : isDigit c = true := isDigit_of_mem_toDigits (hds ▸ List.mem_cons_self)
        refine ⟨c, ds, (toList_toString n).trans hds, isBlank_of_isDigit hc, ?_⟩
        rintro rfl
        cases hc
  reads blanks rest hblanks hrest := by
    rw [toList_toString, readNatural, found_toDigits hn hblanks hrest]
    simp [bind, Except.bind, pure, Except.pure]

/-! ## Lines between brackets -/

/-- The end of a line and the blanks in front of the next one. -/
def newline (level : Nat) : List Char := '\n' :: (indent level).toList

/-- Lines and the closing bracket, behind the opening bracket or behind another line. -/
def body (level : Nat) (closing : Char) : Bool → List String → List Char
  | _, [] => newline level ++ [closing]
  | true, line :: lines => newline (level + 1) ++ (line.toList ++ body level closing false lines)
  | false, line :: lines =>
    ',' :: (newline (level + 1) ++ (line.toList ++ body level closing false lines))

theorem next_newline (hc : isBlank c = false) (level : Nat) (atEnd : Cause) :
    next atEnd (newline level ++ c :: rest) = .ok (c, rest) := by
  refine next_of_blanks (fun c hc => ?_) hc atEnd
  rcases List.mem_cons.mp hc with rfl | hc
  · rfl
  · exact blank_of_mem_indent hc

theorem toList_enclose (level : Nat) (opening : String) {closing : String}
    (hclosing : closing.toList = [c]) (line : String) (lines : List String) :
    (enclose level opening closing (line :: lines)).toList =
      opening.toList ++ body level c true (line :: lines) := by
  have hlines : ∀ (line : String) (lines : List String),
      (String.intercalate ",\n" ((line :: lines).map fun l => indent (level + 1) ++ l)).toList ++
        (newline level ++ [c]) =
      (indent (level + 1)).toList ++ (line.toList ++ body level c false lines) := by
    intro line lines
    induction lines generalizing line with
    | nil => simp [body]
    | cons line' lines ih =>
        have hrest := ih line'
        rw [String.toList_intercalate] at hrest ⊢
        simp only [List.map_cons, List.intercalate_cons_cons, List.append_assoc] at hrest ⊢
        rw [hrest]
        simp [body, newline]
  have hend : ("\n" ++ (indent level ++ closing)).toList = newline level ++ [c] := by
    simp [newline, hclosing]
  have hstart : ("\n" : String).toList = ['\n'] := rfl
  simp only [enclose, List.isEmpty_cons, Bool.false_eq_true, if_false, String.append_assoc]
  rw [String.toList_append, String.toList_append, hstart, String.toList_append, hend,
    hlines line lines]
  simp [body, newline]

/-- What follows a line ends it. -/
theorem ends_body (level : Nat) (closing : Char) (lines : List String) (rest : List Char) :
    Ends (body level closing false lines ++ rest) := by
  intro c hc
  cases lines with
  | nil =>
      cases hc
      exact .inr rfl
  | cons line lines =>
      cases hc
      exact .inl rfl

theorem length_body (level : Nat) (closing : Char) (first : Bool) (lines : List String) :
    lines.length < (body level closing first lines).length := by
  induction lines generalizing first with
  | nil => simp [body]
  | cons line lines ih =>
      have := ih false
      cases first <;> simp only [body, newline, List.length_append, List.length_cons] <;> omega

/-! ## Lists -/

theorem hasElement_end (level : Nat) (first : Bool) (rest : List Char) :
    hasElement first (body level ']' first [] ++ rest) = .ok (false, rest) := by
  rw [body, List.append_assoc, List.singleton_append, hasElement, next_newline (by decide)]
  rfl

theorem hasElement_body {line : String} (hline : line.toList = c :: cs) (hc : isBlank c = false)
    (hend : c ≠ ']') (level : Nat) (first : Bool) (lines : List String) (rest : List Char) :
    hasElement first (body level ']' first (line :: lines) ++ rest) =
      .ok (true, c :: cs ++ (body level ']' false lines ++ rest)) := by
  cases first with
  | true =>
      rw [body, hline, List.append_assoc, List.append_assoc, List.cons_append, hasElement,
        next_newline hc]
      simp [bind, Except.bind, hend, pure, Except.pure]
  | false =>
      have hcomma : ∀ rest, next .endOfList (',' :: rest) = .ok (',', rest) := fun _ => rfl
      rw [body, hline, List.cons_append, List.append_assoc, List.append_assoc, List.cons_append,
        hasElement, hcomma]
      simp [bind, Except.bind, next_newline hc, hend, pure, Except.pure]

/-- The elements of a list are read one after another. -/
theorem elements_body {texts : List String} {as : List α} (level : Nat)
    (h : List.Forall₂ (Reads read) texts as) (rest : List Char) {bound : Nat} (first : Bool)
    (hbound : texts.length < bound) :
    elements read bound first (body level ']' first texts ++ rest) = .ok (as, rest) := by
  induction h generalizing bound first with
  | nil =>
      obtain ⟨bound, rfl⟩ := Nat.exists_eq_add_one_of_ne_zero (Nat.ne_of_gt hbound)
      rw [elements, hasElement_end]
      rfl
  | @cons text a texts as ha _ ih =>
      obtain ⟨bound, rfl⟩ := Nat.exists_eq_add_one_of_ne_zero (Nat.ne_zero_of_lt hbound)
      obtain ⟨c, cs, htext, hc, hend⟩ := ha.starts
      have hread := ha.reads [] _ (fun _ hc => nomatch hc) (ends_body level ']' texts rest)
      rw [List.nil_append, htext] at hread
      rw [elements, hasElement_body htext hc hend]
      simp only [bind, Except.bind, hread, ih false (Nat.lt_of_succ_lt_succ hbound)]
      rfl

/-- Lists are read if their elements are. -/
theorem reads_list {texts : List String} {as : List α} (level : Nat)
    (h : List.Forall₂ (Reads read) texts as) :
    Reads (readList read) (enclose level "[" "]" texts) as := by
  have hopen : ∀ {blanks rest : List Char}, (∀ c ∈ blanks, isBlank c = true) →
      readList read (blanks ++ '[' :: rest) =
        elements read (blanks ++ '[' :: rest).length true rest := by
    intro blanks rest hblanks
    rw [readList, next_of_blanks hblanks (by decide)]
    rfl
  cases h with
  | nil =>
      have htext : (enclose level "[" "]" []).toList = '[' :: [']'] := by simp [enclose]
      refine ⟨⟨'[', [']'], htext, by decide, by decide⟩, fun blanks rest hblanks _ => ?_⟩
      rw [htext, List.append_assoc, List.cons_append, hopen hblanks, List.length_append,
        List.length_cons]
      rfl
  | @cons text a texts as ha has =>
      have htext := toList_enclose level "[" (show "]".toList = [']'] from rfl) text texts
      refine ⟨⟨'[', _, htext, by decide, by decide⟩, fun blanks rest hblanks _ => ?_⟩
      rw [htext, List.append_assoc, show "[".toList = ['['] from rfl, List.singleton_append,
        List.cons_append, hopen hblanks]
      refine elements_body level (.cons ha has) rest true ?_
      have := length_body level ']' true (text :: texts)
      simp only [List.length_append, List.length_cons] at this ⊢
      omega

/-! ## Fields -/

/-- The line of a field. -/
def fieldLine (field : String × String) : String := quote field.1 ++ ": " ++ field.2

theorem toList_fieldLine (key text : String) :
    (fieldLine (key, text)).toList =
      '"' :: (key.toList.flatMap escape ++ '"' :: ':' :: ' ' :: text.toList) := by
  simp [fieldLine, toList_quote]

theorem hasField_end (level : Nat) (first : Bool) (rest : List Char) :
    hasField first (body level '\x7d' first [] ++ rest) = .ok (false, rest) := by
  rw [body, List.append_assoc, List.singleton_append, hasField, next_newline (by decide)]
  rfl

theorem hasField_body (key text : String) (level : Nat) (first : Bool) (lines : List String)
    (rest : List Char) :
    hasField first (body level '\x7d' first (fieldLine (key, text) :: lines) ++ rest) =
      .ok (true, key.toList.flatMap escape ++
        '"' :: ':' :: (' ' :: text.toList ++ (body level '\x7d' false lines ++ rest))) := by
  cases first with
  | true =>
      rw [body, toList_fieldLine, List.append_assoc, List.append_assoc, List.cons_append, hasField,
        next_newline (by decide)]
      simp [bind, Except.bind]
  | false =>
      have hcomma : ∀ rest, next .endOfObject (',' :: rest) = .ok (',', rest) := fun _ => rfl
      rw [body, toList_fieldLine, List.cons_append, List.append_assoc, List.append_assoc,
        List.cons_append, hasField, hcomma]
      simp [bind, Except.bind, next_newline (show isBlank '"' = false by decide)]

/-- The value of a field is read behind the colon. -/
theorem Reads.field (h : Reads read text a) {rest : List Char} (hrest : Ends rest) :
    read (' ' :: text.toList ++ rest) = .ok (a, rest) :=
  h.reads [' '] rest (by simp [isBlank]) hrest

theorem colon_cons (rest : List Char) : colon (':' :: rest) = .ok rest := rfl

/-- Texts by name are read one after another. -/
theorem entries_body (level : Nat) (es : List (String × String)) (rest : List Char) {bound : Nat}
    (first : Bool) (hbound : es.length < bound) :
    entries bound first (body level '\x7d' first (es.map fun e => fieldLine (e.1, quote e.2)) ++ rest)
      = .ok (es, rest) := by
  induction es generalizing bound first with
  | nil =>
      obtain ⟨bound, rfl⟩ := Nat.exists_eq_add_one_of_ne_zero (Nat.ne_of_gt hbound)
      rw [List.map_nil, entries, hasField_end]
      rfl
  | cons e es ih =>
      obtain ⟨bound, rfl⟩ := Nat.exists_eq_add_one_of_ne_zero (Nat.ne_zero_of_lt hbound)
      obtain ⟨key, s⟩ := e
      rw [List.map_cons, entries, hasField_body]
      have hread := (reads_text s).field (ends_body level '\x7d'
        (es.map fun e => fieldLine (e.1, quote e.2)) rest)
      simp only [bind, Except.bind, chars_flatMap_escape, colon_cons, hread,
        ih false (Nat.lt_of_succ_lt_succ hbound), String.ofList_toList]
      rfl

/-- Texts by name are read in the order in which they are written. -/
theorem reads_entries (level : Nat) (es : List (String × String)) :
    Reads readEntries (enclose level "\x7b" "\x7d" (es.map fun e => fieldLine (e.1, quote e.2)))
      es := by
  have hopen : ∀ {blanks rest : List Char}, (∀ c ∈ blanks, isBlank c = true) →
      readEntries (blanks ++ '\x7b' :: rest) =
        entries (blanks ++ '\x7b' :: rest).length true rest := by
    intro blanks rest hblanks
    rw [readEntries, next_of_blanks hblanks (by decide)]
    rfl
  cases es with
  | nil =>
      have htext : (enclose level "\x7b" "\x7d" []).toList = '\x7b' :: ['\x7d'] := by
        simp [enclose]
      refine ⟨⟨'\x7b', ['\x7d'], htext, by decide, by decide⟩, fun blanks rest hblanks _ => ?_⟩
      rw [List.map_nil, htext, List.append_assoc, List.cons_append, hopen hblanks,
        List.length_append, List.length_cons]
      rfl
  | cons e es =>
      have htext := toList_enclose level "\x7b" (show "\x7d".toList = ['\x7d'] from rfl)
        (fieldLine (e.1, quote e.2)) (es.map fun e => fieldLine (e.1, quote e.2))
      refine ⟨⟨'\x7b', _, htext, by decide, by decide⟩, fun blanks rest hblanks _ => ?_⟩
      rw [List.map_cons, htext, List.append_assoc, show "\x7b".toList = ['\x7b'] from rfl,
        List.singleton_append, List.cons_append, hopen hblanks]
      refine entries_body level (e :: es) rest true ?_
      have := length_body level '\x7d' true ((e :: es).map fun e => fieldLine (e.1, quote e.2))
      simp only [List.map_cons, List.length_append, List.length_cons, List.length_map] at this ⊢
      omega

/-! ## Records -/

/-- The fields with these names and texts are put into the record one after another.  None of them
has been given before. -/
inductive Puts (members : List (Member σ)) : List String → σ → List (String × String) → σ → Prop
  | nil {given : List String} {r : σ} : Puts members given r [] r
  | cons {given : List String} {r r₁ r₂ : σ} {m : Member σ} {key text : String}
      {fields : List (String × String)} (member : members.find? (fun m => m.name == key) = some m)
      (new : key ∉ given) (put : Reads (m.read r) text r₁)
      (rest : Puts members (key :: given) r₁ fields r₂) :
      Puts members given r ((key, text) :: fields) r₂

variable {members : List (Member σ)} {given : List String} {r r' : σ}
  {fields : List (String × String)}

/-- The fields of a record are read one after another. -/
theorem byName_body (level : Nat) (h : Puts members given r fields r') (rest : List Char)
    {bound : Nat} (first : Bool)
    (hrequired : ∀ m ∈ members, m.required = true → m.name ∈ given ∨ m.name ∈ fields.map Prod.fst)
    (hbound : fields.length < bound) :
    byName members bound given first r (body level '\x7d' first (fields.map fieldLine) ++ rest) =
      .ok (r', rest) := by
  induction h generalizing bound first with
  | @nil given r =>
      obtain ⟨bound, rfl⟩ := Nat.exists_eq_add_one_of_ne_zero (Nat.ne_of_gt hbound)
      have hall : members.find? (fun m => m.required && !given.contains m.name) = none := by
        refine List.find?_eq_none.mpr fun m hm hmissing => ?_
        simp only [Bool.and_eq_true, Bool.not_eq_true', List.contains_eq_mem,
          decide_eq_false_iff_not] at hmissing
        rcases hrequired m hm hmissing.1 with hgiven | hfield
        · exact hmissing.2 hgiven
        · cases hfield
      rw [List.map_nil, byName, hasField_end]
      simp only [bind, Except.bind, hall]
      rfl
  | @cons given r r₁ r₂ m key text fields member new put _ ih =>
      obtain ⟨bound, rfl⟩ := Nat.exists_eq_add_one_of_ne_zero (Nat.ne_zero_of_lt hbound)
      have hread := put.field (ends_body level '\x7d' (fields.map fieldLine) rest)
      have hgiven : ∀ m ∈ members, m.required = true →
          m.name ∈ key :: given ∨ m.name ∈ fields.map Prod.fst := by
        intro m hm hneeded
        have := hrequired m hm hneeded
        simp only [List.map_cons, List.mem_cons] at this ⊢
        tauto
      have hrest := ih false hgiven (Nat.lt_of_succ_lt_succ hbound)
      rw [List.map_cons, byName, hasField_body]
      simp only [bind, Except.bind, chars_flatMap_escape, String.ofList_toList, member,
        List.contains_eq_mem, new, decide_false, Bool.false_eq_true, if_false, colon_cons, hread,
        hrest]

/-- Records are read if their fields are. -/
theorem reads_record (title : String) (level : Nat) {field : String × String}
    (h : Puts members [] r (field :: fields) r')
    (hrequired : ∀ m ∈ members, m.required = true → m.name ∈ (field :: fields).map Prod.fst) :
    Reads (readRecord title members r)
      (enclose level "\x7b" "\x7d" ((field :: fields).map fieldLine)) r' := by
  have htext := toList_enclose level "\x7b" (show "\x7d".toList = ['\x7d'] from rfl)
    (fieldLine field) (fields.map fieldLine)
  refine ⟨⟨'\x7b', _, htext, by decide, by decide⟩, fun blanks rest hblanks _ => ?_⟩
  rw [List.map_cons, htext, List.append_assoc, show "\x7b".toList = ['\x7b'] from rfl,
    List.singleton_append, List.cons_append, readRecord, next_of_blanks hblanks (by decide)]
  refine byName_body level h rest true (fun m hm hneeded => .inr (hrequired m hm hneeded)) ?_
  have := length_body level '\x7d' true ((field :: fields).map fieldLine)
  simp only [List.map_cons, List.length_append, List.length_cons, List.length_map] at this ⊢
  omega

/-- A text that holds one value is read as the value. -/
theorem readAll_of_reads (h : Reads read text a) : readAll read text = .ok a := by
  have hread := h.reads [] [] (fun _ hc => nomatch hc) (fun _ hc => nomatch hc)
  rw [List.nil_append, List.append_nil] at hread
  rw [readAll, hread]
  rfl

end ObjectRuntime.Json

import StyleSplit.Proofs.Stylesheet.Reading

/-! How much of a text decides its lexemes. Only the first character after a lexeme
matters to it, and nothing after a lexeme that is closed. -/

namespace StyleSplit.Lexeme

theorem ofText_escape (c : Char) (text : List Char) :
    ofText ('\\' :: c :: text) = escape (some c) :: ofText text := by
  rw [ofText.eq_def]
  rfl

theorem ofText_quoted {mark : Char} (hmark : mark = '"' ∨ mark = '\'') (text : List Char) :
    ofText (mark :: text) =
      quoted mark (takeQuoted mark text).1 :: ofText (takeQuoted mark text).2 := by
  have hescape : mark ≠ '\\' := by rcases hmark with rfl | rfl <;> decide
  rw [ofText.eq_def]
  dsimp only
  rw [if_neg hescape, if_pos hmark]

theorem ofText_comment {text body rest : List Char}
    (h : takeComment? text = some (body, rest)) :
    ofText ('/' :: '*' :: text) = comment body :: ofText rest := by
  rw [ofText.eq_def]
  dsimp only
  rw [if_neg (by decide), if_neg (by decide), if_pos (by simp)]
  split
  · rename_i htake
    rw [List.tail_cons, h] at htake
    cases htake
    rfl
  · rename_i htake
    rw [List.tail_cons, h] at htake
    cases htake

theorem ofText_openComment {text : List Char} (h : takeComment? text = none) :
    ofText ('/' :: '*' :: text) = [openComment text] := by
  rw [ofText.eq_def]
  dsimp only
  rw [if_neg (by decide), if_neg (by decide), if_pos (by simp)]
  split
  · rename_i htake
    rw [List.tail_cons, h] at htake
    cases htake
  · rfl

theorem ofText_plain {c : Char} {text : List Char} (hescape : c ≠ '\\')
    (hquote : ¬ (c = '"' ∨ c = '\'')) (hcomment : ¬ (c = '/' ∧ text.head? = some '*')) :
    ofText (c :: text) = plain c :: ofText text := by
  rw [ofText.eq_def]
  dsimp only
  rw [if_neg hescape, if_neg hquote, if_neg hcomment]

theorem takeQuoted_cons {mark c : Char} (hc : c ≠ '\\') (text : List Char) :
    takeQuoted mark (c :: text) =
      if c = '\n' then ([], c :: text)
      else if c = mark then ([c], text)
      else (c :: (takeQuoted mark text).1, (takeQuoted mark text).2) := by
  rw [takeQuoted]
  · exact fun heq _ => hc heq
  · exact fun _ _ heq _ => hc heq

theorem ne_backslash {c : Char} {text : List Char} (hend : c = '\\' → text = [] → False)
    (hescape : ∀ d rest, c = '\\' → text = d :: rest → False) : c ≠ '\\' := by
  intro hc
  cases text with
  | nil => exact hend hc rfl
  | cons d text => exact hescape d text hc rfl

theorem takeQuoted_of_head? {mark : Char} {text within rest other : List Char}
    (h : takeQuoted mark text = (within, rest))
    (hother : other = [] ∨ other.head? = rest.head?) :
    takeQuoted mark (within ++ other) = (within, other) := by
  fun_induction takeQuoted mark text generalizing within with
  | case1 =>
      cases h
      have hnil : other = [] := by simpa using hother
      rw [hnil]
      rfl
  | case2 =>
      cases h
      have hnil : other = [] := by simpa using hother
      rw [hnil]
      rfl
  | case3 c text first second htake ih =>
      cases h
      rw [List.cons_append, List.cons_append, takeQuoted, ih htake]
  | case4 text _ hescape =>
      cases h
      rcases hother with rfl | hhead
      · rfl
      · obtain ⟨other, rfl⟩ := List.head?_eq_some_iff.mp hhead
        rw [List.nil_append, takeQuoted_cons (by decide), if_pos rfl]
  | case5 text hend hescape hline =>
      cases h
      rw [List.singleton_append, takeQuoted_cons (ne_backslash hend hescape), if_neg hline,
        if_pos rfl]
  | case6 c text hend hescape hline hmark first second htake ih =>
      cases h
      rw [List.cons_append, takeQuoted_cons (ne_backslash hend hescape), if_neg hline,
        if_neg hmark, ih htake]

theorem takeComment?_cons {c : Char} {text : List Char}
    (h : ¬ (c = '*' ∧ text.head? = some '/')) :
    takeComment? (c :: text) =
      (takeComment? text).map fun (body, rest) => (c :: body, rest) := by
  rw [takeComment?]
  intro rest hc htext
  exact h ⟨hc, by rw [htext]; rfl⟩

theorem takeComment?_append_any {body rest : List Char}
    (h : takeComment? (body ++ '*' :: '/' :: rest) = some (body, rest)) (other : List Char) :
    takeComment? (body ++ '*' :: '/' :: other) = some (body, other) := by
  induction body with
  | nil => rfl
  | cons c body ih =>
      have hnot : ¬ (c = '*' ∧ (body ++ '*' :: '/' :: rest).head? = some '/') := by
        rintro ⟨rfl, hhead⟩
        obtain ⟨text, htext⟩ := List.head?_eq_some_iff.mp hhead
        rw [List.cons_append, htext, takeComment?] at h
        simp at h
      have hother : ¬ (c = '*' ∧ (body ++ '*' :: '/' :: other).head? = some '/') := by
        cases body with
        | nil => simp
        | cons d body => exact hnot
      rw [List.cons_append, takeComment?_cons hnot] at h
      obtain ⟨⟨first, second⟩, htake, heq⟩ := Option.map_eq_some_iff.mp h
      cases heq
      rw [List.cons_append, takeComment?_cons hother, ih htake]
      rfl

/-- What makes a lexeme the first one of its text when `rest` follows. -/
def Fits (rest : List Char) : Lexeme → Prop
  | plain c => c ≠ '\\' ∧ ¬ (c = '"' ∨ c = '\'') ∧ ¬ (c = '/' ∧ rest.head? = some '*')
  | escape none => rest = []
  | escape (some _) => True
  | quoted mark within =>
      (mark = '"' ∨ mark = '\'') ∧ takeQuoted mark (within ++ rest) = (within, rest)
  | comment body => takeComment? (body ++ '*' :: '/' :: rest) = some (body, rest)
  | openComment body => rest = [] ∧ takeComment? body = none

def IsClosed : Lexeme → Prop
  | plain c => c ≠ '/'
  | comment _ => True
  | _ => False

theorem Fits.ofText_append {lexeme : Lexeme} {rest : List Char} (h : lexeme.Fits rest) :
    ofText (lexeme.text ++ rest) = lexeme :: ofText rest := by
  cases lexeme with
  | plain c => exact ofText_plain h.1 h.2.1 h.2.2
  | escape c =>
      cases c with
      | none =>
          have hrest : rest = [] := h
          rw [hrest]
          simp [text, ofText]
      | some c => exact ofText_escape c rest
  | quoted mark within =>
      rw [text, List.cons_append, ofText_quoted h.1, h.2]
  | comment body =>
      have hshape : (comment body).text ++ rest =
          '/' :: '*' :: (body ++ '*' :: '/' :: rest) := by
        simp [text]
      rw [hshape, ofText_comment h]
  | openComment body =>
      obtain ⟨rfl, htake⟩ := h
      rw [List.append_nil, text, ofText_openComment htake]
      simp [ofText]

theorem exists_fits (c : Char) (text : List Char) :
    ∃ lexeme rest, c :: text = Lexeme.text lexeme ++ rest ∧ lexeme.Fits rest := by
  by_cases hescape : c = '\\'
  · subst hescape
    cases text with
    | nil => exact ⟨escape none, [], rfl, rfl⟩
    | cons d text => exact ⟨escape (some d), text, rfl, trivial⟩
  · by_cases hquote : c = '"' ∨ c = '\''
    · refine ⟨quoted c (takeQuoted c text).1, (takeQuoted c text).2, ?_, hquote, ?_⟩
      · rw [Lexeme.text, List.cons_append, takeQuoted_append]
      · rw [takeQuoted_append]
    · by_cases hcomment : c = '/' ∧ text.head? = some '*'
      · obtain ⟨rfl, hstar⟩ := hcomment
        obtain ⟨text, rfl⟩ := List.head?_eq_some_iff.mp hstar
        cases htake : takeComment? text with
        | none => exact ⟨openComment text, [], by simp [Lexeme.text], rfl, htake⟩
        | some taken =>
            obtain ⟨body, rest⟩ := taken
            have hbody := takeComment?_append htake
            refine ⟨comment body, rest, by simp [Lexeme.text, hbody], ?_⟩
            rw [Fits, ← hbody, htake]
      · exact ⟨plain c, text, rfl, hescape, hquote, hcomment⟩

theorem Fits.of_head? {lexeme : Lexeme} {rest other : List Char} (h : lexeme.Fits rest)
    (hother : other = [] ∨ other.head? = rest.head?) : lexeme.Fits other := by
  cases lexeme with
  | plain c =>
      refine ⟨h.1, h.2.1, ?_⟩
      rintro ⟨hc, hstar⟩
      rcases hother with rfl | hhead
      · simp at hstar
      · exact h.2.2 ⟨hc, hhead ▸ hstar⟩
  | escape c =>
      cases c with
      | none =>
          have hrest : rest = [] := h
          rw [hrest] at hother
          simpa [Fits] using hother
      | some c => trivial
  | quoted mark within => exact ⟨h.1, takeQuoted_of_head? h.2 hother⟩
  | comment body => exact takeComment?_append_any h other
  | openComment body =>
      refine ⟨?_, h.2⟩
      rw [h.1] at hother
      simpa using hother

theorem Fits.of_isClosed {lexeme : Lexeme} {rest : List Char} (h : lexeme.Fits rest)
    (hclosed : lexeme.IsClosed) (other : List Char) : lexeme.Fits other := by
  cases lexeme with
  | plain c => exact ⟨h.1, h.2.1, fun hcomment => hclosed hcomment.1⟩
  | comment body => exact takeComment?_append_any h other
  | escape => exact hclosed.elim
  | quoted => exact hclosed.elim
  | openComment => exact hclosed.elim

theorem head?_textOf_cons (lexeme : Lexeme) (first second : List Lexeme) :
    (textOf (lexeme :: first)).head? = (textOf (lexeme :: second)).head? := by
  obtain ⟨c, text, htext⟩ := List.exists_cons_of_ne_nil lexeme.text_ne_nil
  rw [textOf_cons, textOf_cons, htext]
  rfl

/-- Lexemes that are those of their text. -/
def Lexed : List Lexeme → Prop
  | [] => True
  | lexeme :: lexemes => lexeme.Fits (textOf lexemes) ∧ Lexed lexemes

namespace Lexed

variable {first second : List Lexeme} {lexeme : Lexeme}

theorem ofText_textOf : ∀ {lexemes}, Lexed lexemes → ofText (textOf lexemes) = lexemes
  | [], _ => by simp [textOf, ofText]
  | lexeme :: lexemes, h => by
      rw [textOf_cons, h.1.ofText_append, ofText_textOf h.2]

theorem left (h : Lexed (first ++ second)) : Lexed first := by
  induction first with
  | nil => trivial
  | cons lexeme first ih =>
      refine ⟨h.1.of_head? ?_, ih h.2⟩
      cases first with
      | nil => exact .inl rfl
      | cons next first => exact .inr (head?_textOf_cons next _ _)

theorem right (h : Lexed (first ++ second)) : Lexed second := by
  induction first with
  | nil => exact h
  | cons lexeme first ih => exact ih h.2

theorem append (hfirst : Lexed (first ++ [lexeme])) (hclosed : lexeme.IsClosed)
    (hsecond : Lexed second) : Lexed (first ++ lexeme :: second) := by
  induction first with
  | nil => exact ⟨hfirst.1.of_isClosed hclosed _, hsecond⟩
  | cons before first ih =>
      refine ⟨hfirst.1.of_head? (.inr ?_), ih hfirst.2⟩
      cases first with
      | nil => exact head?_textOf_cons lexeme _ _
      | cons next first => exact head?_textOf_cons next _ _

end Lexed

theorem lexed_ofText (text : List Char) : Lexed (ofText text) := by
  -- By length: what follows the first lexeme is a shorter text.
  induction hlength : text.length using Nat.strongRecOn generalizing text with
  | ind length ih =>
      subst hlength
      cases text with
      | nil => simp [ofText, Lexed]
      | cons c text =>
          obtain ⟨lexeme, rest, htext, hfits⟩ := exists_fits c text
          have hshorter : rest.length < (c :: text).length := by
            have hpos := List.length_pos_iff.mpr lexeme.text_ne_nil
            rw [htext, List.length_append]
            omega
          rw [htext, hfits.ofText_append]
          exact ⟨by rwa [textOf_ofText], ih _ hshorter rest rfl⟩

/-- A text whose last lexeme is closed is read in the same way whatever follows it. -/
theorem Lexed.ofText_append {first : List Lexeme} {lexeme : Lexeme}
    (h : Lexed (first ++ [lexeme])) (hclosed : lexeme.IsClosed) (text : List Char) :
    ofText (textOf (first ++ [lexeme]) ++ text) = first ++ lexeme :: ofText text := by
  have hall := (h.append hclosed (lexed_ofText text)).ofText_textOf
  rw [textOf_append, textOf_cons, textOf_ofText] at hall
  rw [← hall, textOf_append, textOf_cons]
  simp [textOf]

end StyleSplit.Lexeme

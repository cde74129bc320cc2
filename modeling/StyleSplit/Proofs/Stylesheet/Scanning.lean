import StyleSplit.Proofs.Stylesheet.Scanner
import StyleSplit.Proofs.Stylesheet.Steps

/-! Scanning in place meets no fault, and stops where the lexemes say. An offset may come
to lie inside a character, but only after an escape, and then the scan finds its way to
the end of the character. -/

namespace StyleSplit.Stylesheet.InPlace

open Lexeme (textOf textOf_append textOf_cons Lexed takeQuoted takeComment?)
open Text (byteLength codes IsHigh)

variable {text before rest : List Char} {limit offset : Nat} {c : Char}
  {move : Nat → Char → Move}

theorem ok_bind {α β : Type} (value : α) (next : α → Except Fault β) :
    (Except.ok value >>= next) = next value := rfl

theorem byte_eq_ok (h : (codes text)[offset]? = some c) : byte text offset = .ok c := by
  rw [byte, h]
  rfl

theorem exists_byte (htext : text = before ++ c :: rest) :
    ∃ d, byte text (byteLength before) = .ok d ∧ (¬ IsHigh c → d = c) ∧ (IsHigh c → IsHigh d) := by
  by_cases hc : IsHigh c
  · obtain ⟨d, hd, hhigh⟩ := @Text.exists_isHigh before rest c hc 0 c.utf8Size_pos
    exact ⟨d, byte_eq_ok (htext ▸ hd), fun h => absurd hc h, fun _ => hhigh⟩
  · exact ⟨c, byte_eq_ok (htext ▸ Text.getElem?_codes_cons hc), fun _ => rfl, fun h => absurd h hc⟩

theorem byte_eq (htext : text = before ++ c :: rest) (hc : ¬ IsHigh c) :
    byte text (byteLength before) = .ok c := by
  obtain ⟨d, hd, hsame, -⟩ := exists_byte htext
  rw [hd, hsame hc]

theorem slice_eq {within after : List Char} {stop : Nat}
    (htext : text = before ++ (within ++ after))
    (hstop : stop = byteLength before + byteLength within) :
    slice text (byteLength before) stop = .ok within := by
  have hnot : ¬ byteLength before + byteLength within < byteLength before := by omega
  rw [slice, Text.slice?, htext, Text.cut?_byteLength, hstop]
  simp [hnot, Text.cut?_byteLength]

theorem ne_of_isHigh {mark : Char} (hc : IsHigh c) (hmark : ¬ IsHigh mark) : c ≠ mark :=
  fun h => hmark (h ▸ hc)

theorem skipQuoted_inside {mark : Char} (hmark : ¬ IsHigh mark)
    (htext : text = before ++ c :: rest) (hlimit : byteLength before + c.utf8Size ≤ limit)
    {inside : Nat} (hpos : 1 ≤ inside) (hle : inside ≤ c.utf8Size) :
    skipQuoted text limit mark (byteLength before + inside) =
      skipQuoted text limit mark (byteLength before + c.utf8Size) := by
  obtain ⟨left, hleft⟩ := Nat.exists_eq_add_of_le hle
  induction left generalizing inside with
  | zero => rw [hleft, Nat.add_zero]
  | succ left ih =>
      have hc : IsHigh c := by
        by_contra hc
        have hone := Text.utf8Size_of_not_isHigh hc
        omega
      obtain ⟨d, hd, hhigh⟩ := @Text.exists_isHigh before rest c hc inside (by omega)
      rw [skipQuoted, if_pos (by omega), byte_eq_ok (htext ▸ hd), ok_bind,
        if_neg (ne_of_isHigh hhigh (by decide)), if_neg (ne_of_isHigh hhigh (by decide)),
        if_neg (ne_of_isHigh hhigh hmark), Nat.add_assoc]
      exact ih (by omega) (by omega) (by omega)

theorem skipQuoted_eq {mark : Char} (hmark : mark = '"' ∨ mark = '\'') {within after : List Char}
    (htext : text = before ++ (within ++ after))
    (hlimit : limit = byteLength before + byteLength within) :
    skipQuoted text limit mark (byteLength before) =
      .ok (byteLength before + byteLength (takeQuoted mark within).1) := by
  have hascii : ¬ IsHigh mark := by rcases hmark with rfl | rfl <;> decide
  fun_induction takeQuoted mark within generalizing before with
  | case1 =>
      rw [skipQuoted, if_neg (by simp [hlimit]), hlimit]
  | case2 =>
      have hsize : limit = byteLength before + 1 := hlimit
      rw [skipQuoted, if_pos (by omega), byte_eq htext (by decide), ok_bind, if_pos rfl,
        skipQuoted, if_neg (by omega), hlimit]
  | case3 c within first second htake ih =>
      have hsize : '\\'.utf8Size = 1 := by decide
      have hnext : text = (before ++ ['\\']) ++ c :: (within ++ after) := by rw [htext]; simp
      have hrest : text = (before ++ ['\\', c]) ++ (within ++ after) := by rw [htext]; simp
      have hlength :
          byteLength (before ++ ['\\']) + c.utf8Size = byteLength (before ++ ['\\', c]) := by
        simp [Nat.add_assoc]
      have hpos := c.utf8Size_pos
      have hfits : byteLength (before ++ ['\\', c]) + byteLength within = limit := by
        rw [hlimit]
        simp [Nat.add_assoc]
      have hstep : byteLength before + 2 = byteLength (before ++ ['\\']) + 1 := by
        simp [hsize]
      rw [skipQuoted, if_pos (by simp [hlimit]; omega), byte_eq htext (by decide), ok_bind,
        if_pos rfl, hstep, skipQuoted_inside hascii hnext (by omega) (Nat.le_refl 1) hpos, hlength,
        ih hrest hfits.symm, htake]
      simp [Nat.add_assoc]
  | case4 within _ _ =>
      rw [Text.byteLength_cons, Text.utf8Size_newline] at hlimit
      rw [skipQuoted, if_pos (by omega), byte_eq htext (by decide), ok_bind, if_neg (by decide),
        if_pos rfl]
      rfl
  | case5 within hend hescape hline =>
      have hslash := Lexeme.ne_backslash hend hescape
      have hone := Text.utf8Size_of_not_isHigh hascii
      rw [skipQuoted, if_pos (by simp [hlimit]; omega), byte_eq htext hascii, ok_bind,
        if_neg hslash, if_neg hline, if_pos rfl]
      simp [hone]
  | case6 c within hend hescape hline hne first second htake ih =>
      have hslash := Lexeme.ne_backslash hend hescape
      have hrest : text = (before ++ [c]) ++ (within ++ after) := by rw [htext]; simp
      have hlength : byteLength before + c.utf8Size = byteLength (before ++ [c]) := by simp
      have hpos := c.utf8Size_pos
      have hfits : byteLength (before ++ [c]) + byteLength within = limit := by
        rw [hlimit]
        simp [Nat.add_assoc]
      obtain ⟨d, hd, hsame, hhigh⟩ := exists_byte htext
      have hother {other : Char} (hc : c ≠ other) (hother : ¬ IsHigh other) : d ≠ other := by
        by_cases hchar : IsHigh c
        · exact ne_of_isHigh (hhigh hchar) hother
        · rwa [hsame hchar]
      rw [skipQuoted, if_pos (by simp [hlimit]; omega), hd, ok_bind,
        if_neg (hother hslash (by decide)), if_neg (hother hline (by decide)),
        if_neg (hother hne hascii), skipQuoted_inside hascii htext (by omega) (Nat.le_refl 1) hpos,
        hlength, ih hrest hfits.symm, htake]
      simp [Nat.add_assoc]

/-- `lexemes` are those of the text from the end of `before` up to the limit. No star
stands at the limit, so nothing before it opens a comment. -/
structure Region (text : List Char) (limit : Nat) (before : List Char) (lexemes : List Lexeme) :
    Prop where
  lexed : Lexed lexemes
  limit_eq : limit = byteLength before + byteLength (textOf lexemes)
  exists_after : ∃ after, text = before ++ (textOf lexemes ++ after) ∧ after.head? ≠ some '*'

namespace Region

variable {first second lexemes : List Lexeme} {lexeme : Lexeme}

theorem right (h : Region text limit before (first ++ second)) :
    Region text limit (before ++ textOf first) second := by
  obtain ⟨after, htext, hafter⟩ := h.exists_after
  refine ⟨h.lexed.right, ?_, after, ?_, hafter⟩
  · rw [h.limit_eq, textOf_append, Text.byteLength_append, Text.byteLength_append, Nat.add_assoc]
  · rw [htext, textOf_append]
    simp

theorem left {mark : Char} (h : Region text limit before (first ++ .plain mark :: second))
    (hmark : mark ≠ '*') :
    Region text (byteLength before + byteLength (textOf first)) before first := by
  obtain ⟨after, htext, -⟩ := h.exists_after
  refine ⟨h.lexed.left, rfl, mark :: (textOf second ++ after), ?_, by simpa using hmark⟩
  rw [htext, textOf_append, textOf_cons]
  simp [Lexeme.text]

theorem tail (h : Region text limit before (lexeme :: lexemes)) :
    Region text limit (before ++ lexeme.text) lexemes := by
  have hright := @right _ _ _ [lexeme] lexemes h
  rwa [textOf_cons, textOf, List.flatMap_nil, List.append_nil] at hright

theorem size_le (h : Region text limit before (lexeme :: lexemes)) :
    byteLength before + lexeme.size ≤ limit := by
  rw [h.limit_eq, textOf_cons, Text.byteLength_append]
  exact Nat.add_le_add_left (Nat.le_add_right ..) _

theorem lt_limit (h : Region text limit before (lexeme :: lexemes)) :
    byteLength before < limit := by
  have hle := h.size_le
  have hpos : 0 < lexeme.size := Text.byteLength_pos lexeme.text_ne_nil
  omega

theorem limit_of_nil (h : Region text limit before []) : limit = byteLength before := h.limit_eq

end Region

section Scan

variable {depth : Nat} {lexemes : List Lexeme} {lexeme : Lexeme}

theorem look_byte (hbyte : byte text offset = .ok c) (hquote : ¬ (c = '"' ∨ c = '\''))
    (hcomment : ¬ (c = '/' ∧ (codes text)[offset + 1]? = some '*')) (hescape : c ≠ '\\') :
    look text limit offset = .ok (.byte c) := by
  rw [look, hbyte, ok_bind, if_neg hquote, if_neg hcomment, if_neg hescape]
  rfl

theorem look_high (hcode : (codes text)[offset]? = some c) (hc : IsHigh c) :
    look text limit offset = .ok (.byte c) := by
  refine look_byte (byte_eq_ok hcode) ?_ ?_ (ne_of_isHigh hc (by decide))
  · rintro (h | h)
    · exact ne_of_isHigh hc (by decide) h
    · exact ne_of_isHigh hc (by decide) h
  · rintro ⟨h, -⟩
    exact ne_of_isHigh hc (by decide) h

theorem scan_limit (h : limit ≤ offset) : scan text limit move depth offset = .ok none := by
  rw [scan, if_neg (by omega)]

theorem scan_inside (hmove : ∀ depth c, IsHigh c → move depth c = .on depth)
    (htext : text = before ++ c :: rest) (hlimit : byteLength before + c.utf8Size ≤ limit)
    {inside : Nat} (hinside : 1 ≤ inside ∨ IsHigh c) (hle : inside ≤ c.utf8Size) :
    scan text limit move depth (byteLength before + inside) =
      scan text limit move depth (byteLength before + c.utf8Size) := by
  obtain ⟨left, hleft⟩ := Nat.exists_eq_add_of_le hle
  induction left generalizing inside with
  | zero => rw [hleft, Nat.add_zero]
  | succ left ih =>
      have hc : IsHigh c := by
        by_contra hc
        have hone := Text.utf8Size_of_not_isHigh hc
        have hpos := hinside.resolve_right hc
        omega
      obtain ⟨d, hd, hhigh⟩ := @Text.exists_isHigh before rest c hc inside (by omega)
      rw [scan, if_pos (by omega), look_high (htext ▸ hd) hhigh, ok_bind]
      dsimp only
      rw [hmove depth d hhigh, Nat.add_assoc]
      exact ih (.inr hc) (by omega) (by omega)

theorem star_iff (htext : text = before ++ c :: rest) (hc : ¬ IsHigh c) :
    (codes text)[byteLength before + 1]? = some '*' ↔ rest.head? = some '*' := by
  have hcode := Text.getElem?_codes (before ++ [c]) rest 0
  have hsize : byteLength (before ++ [c]) + 0 = byteLength before + 1 := by
    simp [Text.utf8Size_of_not_isHigh hc]
  rw [hsize, List.append_assoc, List.singleton_append, ← htext] at hcode
  rw [hcode]
  cases rest with
  | nil => simp [codes, Text.utf8]
  | cons d rest =>
      rw [List.head?_cons]
      by_cases hd : IsHigh d
      · obtain ⟨e, he, hhigh⟩ := @Text.exists_isHigh [] rest d hd 0 d.utf8Size_pos
        rw [show (codes (d :: rest))[0]? = some e from he]
        simp [ne_of_isHigh hd (by decide : ¬ IsHigh '*'),
          ne_of_isHigh hhigh (by decide : ¬ IsHigh '*')]
      · rw [Text.codes_cons, Text.codes_singleton hd]
        rfl

theorem Region.not_star (h : Region text limit before (.plain c :: lexemes)) (hc : ¬ IsHigh c) :
    ¬ (c = '/' ∧ (codes text)[byteLength before + 1]? = some '*') := by
  obtain ⟨after, htext, hafter⟩ := h.exists_after
  have hcons : text = before ++ c :: (textOf lexemes ++ after) := htext
  rw [star_iff hcons hc]
  rintro ⟨hslash, hstar⟩
  cases htail : textOf lexemes with
  | nil => exact hafter (by simpa [htail] using hstar)
  | cons d tail => exact h.lexed.1.2.2 ⟨hslash, by simpa [htail] using hstar⟩

theorem scan_plain (hmove : ∀ depth c, IsHigh c → move depth c = .on depth)
    (h : Region text limit before (.plain c :: lexemes)) :
    scan text limit move depth (byteLength before) =
      match move depth c with
      | .on depth => scan text limit move depth (byteLength before + c.utf8Size)
      | .here => .ok (some (byteLength before, c))
      | .underflow => .error .underflow := by
  obtain ⟨after, htext, -⟩ := h.exists_after
  have hcons : text = before ++ c :: (textOf lexemes ++ after) := htext
  have hle : byteLength before + c.utf8Size ≤ limit := h.size_le
  obtain ⟨hescape, hquote, -⟩ := h.lexed.1
  by_cases hc : IsHigh c
  · rw [hmove depth c hc]
    exact scan_inside hmove hcons hle (.inr hc) (Nat.zero_le _)
  · rw [scan, if_pos h.lt_limit, look_byte (byte_eq hcons hc) hquote (h.not_star hc) hescape,
      ok_bind]
    dsimp only
    rw [Text.utf8Size_of_not_isHigh hc]
    rfl

theorem look_escape {c : Option Char} (h : Region text limit before (.escape c :: lexemes)) :
    look text limit (byteLength before) = .ok (.skip (byteLength before + 2)) := by
  obtain ⟨after, htext, -⟩ := h.exists_after
  have hbyte : byte text (byteLength before) = .ok '\\' := by
    cases c with
    | none => exact byte_eq htext (by decide)
    | some c => exact byte_eq htext (by decide)
  rw [look, hbyte]
  rfl

theorem look_quoted {mark : Char} {within : List Char}
    (h : Region text limit before (.quoted mark within :: lexemes)) :
    look text limit (byteLength before) =
      .ok (.skip (byteLength before + (Lexeme.quoted mark within).size)) := by
  obtain ⟨after, htext, -⟩ := h.exists_after
  obtain ⟨hmark, htake⟩ := h.lexed.1
  have hascii : ¬ IsHigh mark := by rcases hmark with rfl | rfl <;> decide
  have hone := Text.utf8Size_of_not_isHigh hascii
  have hnext : text = (before ++ [mark]) ++ ((within ++ textOf lexemes) ++ after) := by
    rw [htext]
    simp [textOf_cons, Lexeme.text]
  have hlimit : limit = byteLength (before ++ [mark]) + byteLength (within ++ textOf lexemes) := by
    rw [h.limit_eq, textOf_cons, Lexeme.text]
    simp [Nat.add_assoc]
  have hskip := skipQuoted_eq hmark hnext hlimit
  have hstart : byteLength (before ++ [mark]) = byteLength before + 1 := by simp [hone]
  have hstop : byteLength before + 1 + byteLength within =
      byteLength before + (Lexeme.quoted mark within).size := by
    simp [Lexeme.size, Lexeme.text, hone, Nat.add_assoc]
  rw [hstart, htake, hstop] at hskip
  rw [look, byte_eq htext hascii, ok_bind, if_pos hmark, hskip]
  rfl

theorem slice_comment {within after : List Char}
    (htext : text = before ++ '/' :: '*' :: (within ++ after))
    (hlimit : limit = byteLength before + 2 + byteLength within) :
    slice text (byteLength before + 2) limit = .ok within := by
  have hstart : byteLength (before ++ ['/', '*']) = byteLength before + 2 := by
    rw [Text.byteLength_append]
    rfl
  have hnext : text = (before ++ ['/', '*']) ++ (within ++ after) := by
    rw [htext]
    simp
  rw [← hstart] at hlimit ⊢
  exact slice_eq hnext hlimit

theorem look_slash {within after : List Char}
    (htext : text = before ++ '/' :: '*' :: (within ++ after))
    (hlimit : limit = byteLength before + 2 + byteLength within) :
    look text limit (byteLength before) =
      match takeComment? within with
      | some (body, _) => .ok (.skip (byteLength before + 2 + byteLength body + 2))
      | none => .ok .openComment := by
  have hstar := (star_iff htext (by decide)).mpr rfl
  rw [look, byte_eq htext (by decide), ok_bind, if_neg (by decide), if_pos ⟨rfl, hstar⟩,
    slice_comment htext hlimit, ok_bind]
  cases takeComment? within <;> rfl

theorem byteLength_opening (text : List Char) :
    byteLength ('/' :: '*' :: text) = 2 + byteLength text := by
  have hslash : '/'.utf8Size = 1 := by decide
  have hstar : '*'.utf8Size = 1 := by decide
  rw [Text.byteLength_cons, Text.byteLength_cons, hslash, hstar]
  omega

theorem size_comment (body : List Char) :
    (Lexeme.comment body).size = 2 + (byteLength body + 2) := by
  rw [Lexeme.size, Lexeme.text, byteLength_opening, Text.byteLength_append]
  rfl

theorem Region.exists_comment {body : List Char}
    (h : Region text limit before (.comment body :: lexemes)) :
    ∃ after, text = before ++ '/' :: '*' :: ((body ++ '*' :: '/' :: textOf lexemes) ++ after) ∧
      limit = byteLength before + 2 + byteLength (body ++ '*' :: '/' :: textOf lexemes) := by
  obtain ⟨after, htext, -⟩ := h.exists_after
  refine ⟨after, ?_, ?_⟩
  · rw [htext, textOf_cons, Lexeme.text]
    simp
  · rw [h.limit_eq, textOf_cons, Lexeme.text, Nat.add_assoc, ← byteLength_opening]
    simp

theorem Region.exists_openComment {body : List Char}
    (h : Region text limit before (.openComment body :: lexemes)) :
    lexemes = [] ∧ ∃ after, text = before ++ '/' :: '*' :: (body ++ after) ∧
      limit = byteLength before + 2 + byteLength body := by
  obtain ⟨after, htext, -⟩ := h.exists_after
  have hrest : textOf lexemes = [] := h.lexed.1.1
  refine ⟨?_, after, ?_, ?_⟩
  · cases lexemes with
    | nil => rfl
    | cons lexeme lexemes =>
        rw [textOf_cons] at hrest
        exact absurd (List.append_eq_nil_iff.mp hrest).1 lexeme.text_ne_nil
  · rw [htext, textOf_cons, hrest, Lexeme.text]
    simp
  · rw [h.limit_eq, textOf_cons, hrest, Lexeme.text, List.append_nil, byteLength_opening,
      Nat.add_assoc]

/-- A scan passes over a lexeme that is more than a character. -/
theorem scan_skip (hmove : ∀ depth c, IsHigh c → move depth c = .on depth)
    (h : Region text limit before (lexeme :: lexemes)) (hplain : ∀ c, lexeme ≠ .plain c) :
    scan text limit move depth (byteLength before) =
      scan text limit move depth (byteLength before + lexeme.size) := by
  have hpos : 0 < lexeme.size := Text.byteLength_pos lexeme.text_ne_nil
  have hskip {next : Nat} (hnext : byteLength before < next)
      (hlook : look text limit (byteLength before) = .ok (.skip next)) :
      scan text limit move depth (byteLength before) = scan text limit move depth next := by
    rw [scan, if_pos h.lt_limit, hlook, ok_bind]
    dsimp only
    rw [if_pos hnext]
  cases lexeme with
  | plain c => exact absurd rfl (hplain c)
  | escape c =>
      rw [hskip (by omega) (look_escape h)]
      cases c with
      | none =>
          have hsize : byteLength before + (Lexeme.escape none).size = limit := by
            have hrest : textOf lexemes = [] := h.lexed.1
            rw [h.limit_eq, textOf_cons, hrest, List.append_nil]
            rfl
          rw [scan_limit (by rw [← hsize]; exact Nat.le_succ _), scan_limit hsize.ge]
      | some c =>
          obtain ⟨after, htext, -⟩ := h.exists_after
          have hnext : text = (before ++ ['\\']) ++ c :: (textOf lexemes ++ after) := by
            rw [htext]
            simp [textOf_cons, Lexeme.text]
          have hslash : '\\'.utf8Size = 1 := by decide
          have hsize : byteLength before + (Lexeme.escape (some c)).size =
              byteLength (before ++ ['\\']) + c.utf8Size := by
            simp [Lexeme.size, Lexeme.text, Nat.add_assoc]
          have hstart : byteLength before + 2 = byteLength (before ++ ['\\']) + 1 := by
            simp [hslash]
          have hle := h.size_le
          rw [hsize] at hle ⊢
          rw [hstart, scan_inside hmove hnext hle (.inl (Nat.le_refl 1)) c.utf8Size_pos]
  | quoted mark within => exact hskip (by omega) (look_quoted h)
  | comment body =>
      obtain ⟨after, htext, hlimit⟩ := h.exists_comment
      have hlook := look_slash htext hlimit
      rw [show takeComment? (body ++ '*' :: '/' :: textOf lexemes) = _ from h.lexed.1] at hlook
      have hsize : byteLength before + 2 + byteLength body + 2 =
          byteLength before + (Lexeme.comment body).size := by
        rw [size_comment]
        omega
      dsimp only at hlook
      rw [hsize] at hlook
      exact hskip (by omega) hlook
  | openComment body =>
      obtain ⟨rfl, after, htext, hlimit⟩ := h.exists_openComment
      have hlook := look_slash htext hlimit
      rw [h.lexed.1.2] at hlook
      have hsize : byteLength before + (Lexeme.openComment body).size = limit := by
        rw [hlimit, Lexeme.size, Lexeme.text, byteLength_opening, Nat.add_assoc]
      rw [hsize, scan_limit (Nat.le_refl limit), scan, if_pos h.lt_limit, hlook, ok_bind]
      rfl

theorem untilStop_of_isHigh (depth : Nat) (c : Char) (hc : IsHigh c) :
    untilStop depth c = .on depth := by
  have hne {mark : Char} (hmark : ¬ IsHigh mark) : c ≠ mark := ne_of_isHigh hc hmark
  have hstop : Stop.ofChar? c = none := by
    rw [Stop.ofChar?, if_neg (hne (by decide)), if_neg (hne (by decide)),
      if_neg (hne (by decide))]
  have hparens : parensAfter depth c = depth := by
    rw [parensAfter, if_neg (hne (by decide)), if_neg (hne (by decide))]
  rw [untilStop, hstop, hparens, if_neg (by simp)]

theorem untilClosed_of_isHigh (depth : Nat) (c : Char) (hc : IsHigh c) :
    untilClosed depth c = .on depth := by
  rw [untilClosed, if_neg (ne_of_isHigh hc (by decide)), if_neg (ne_of_isHigh hc (by decide))]

theorem size_plain (c : Char) : (Lexeme.plain c).size = c.utf8Size := rfl

theorem byteLength_textOf_cons (lexeme : Lexeme) (lexemes : List Lexeme) :
    byteLength (textOf (lexeme :: lexemes)) = lexeme.size + byteLength (textOf lexemes) := by
  rw [textOf_cons, Text.byteLength_append]
  rfl

theorem scan_untilStop (h : Region text limit before lexemes) :
    scan text limit untilStop depth (byteLength before) =
      .ok ((takePrelude depth lexemes).2.map fun ending =>
        (byteLength before + byteLength (textOf (takePrelude depth lexemes).1),
          ending.1.mark)) := by
  fun_induction takePrelude depth lexemes generalizing before with
  | case1 => exact scan_limit h.limit_eq.le
  | case2 depth c lexemes stop hstop =>
      have hmark : depth = 0 ∧ Stop.ofChar? c = some stop := by
        split at hstop
        · exact ⟨by assumption, hstop⟩
        · cases hstop
      rw [scan_plain untilStop_of_isHigh h, untilStop, if_pos ⟨hmark.1, by rw [hmark.2]; rfl⟩,
        Stop.mark_of_ofChar? hmark.2]
      rfl
  | case3 depth c lexemes hstop first second htake ih =>
      have hnot : ¬ (depth = 0 ∧ (Stop.ofChar? c).isSome) := by
        rintro ⟨hdepth, hsome⟩
        rw [if_pos hdepth] at hstop
        rw [hstop] at hsome
        cases hsome
      have hnext := ih h.tail
      rw [Text.byteLength_append, htake] at hnext
      rw [scan_plain untilStop_of_isHigh h, untilStop, if_neg hnot, byteLength_textOf_cons,
        ← Nat.add_assoc]
      exact hnext
  | case4 depth lexeme lexemes hplain first second htake ih =>
      have hnext := ih h.tail
      rw [Text.byteLength_append, htake] at hnext
      rw [scan_skip untilStop_of_isHigh h hplain, byteLength_textOf_cons, ← Nat.add_assoc]
      exact hnext

theorem scan_untilClosed (h : Region text limit before lexemes) :
    scan text limit untilClosed (depth + 1) (byteLength before) =
      .ok ((takeBlock? depth lexemes).map fun block =>
        (byteLength before + byteLength (textOf block.1), '\x7d')) := by
  induction lexemes generalizing before depth with
  | nil => exact scan_limit h.limit_eq.le
  | cons lexeme lexemes ih =>
      have hnext (depth : Nat) :
          scan text limit untilClosed (depth + 1) (byteLength before + lexeme.size) =
            .ok (((takeBlock? depth lexemes).map fun block => (lexeme :: block.1, block.2)).map
              fun block => (byteLength before + byteLength (textOf block.1), '\x7d')) := by
        have htail := @ih (before ++ lexeme.text) depth h.tail
        rw [Text.byteLength_append] at htail
        rw [Option.map_map]
        refine htail.trans (congrArg Except.ok (congrArg (Option.map · _) (funext ?_)))
        intro block
        simp only [Function.comp_apply, byteLength_textOf_cons, Nat.add_assoc]
        rfl
      by_cases hplain : ∃ c, lexeme = .plain c
      · obtain ⟨c, rfl⟩ := hplain
        rw [scan_plain untilClosed_of_isHigh h, untilClosed, takeBlock?]
        by_cases hopen : c = '\x7b'
        · subst hopen
          exact hnext (depth + 1)
        · by_cases hclose : c = '\x7d'
          · subst hclose
            cases depth with
            | zero => rfl
            | succ depth => exact hnext depth
          · have hne {mark : Char} (hmark : c ≠ mark) : Lexeme.plain c ≠ .plain mark := by
              simpa using hmark
            rw [if_neg hopen, if_neg hclose, if_neg fun h => hne hclose h.1, if_neg (hne hopen),
              if_neg (hne hclose)]
            exact hnext depth
      · have hne (c : Char) : lexeme ≠ .plain c := fun heq => hplain ⟨c, heq⟩
        rw [scan_skip untilClosed_of_isHigh h hne, takeBlock?, if_neg fun hclose => hne _ hclose.1,
          if_neg (hne _), if_neg (hne _)]
        exact hnext depth

end Scan

end StyleSplit.Stylesheet.InPlace

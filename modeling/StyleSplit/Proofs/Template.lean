import StyleSplit.Options
import StyleSplit.Path
import StyleSplit.Proofs.Delimiter
import StyleSplit.Proofs.Text.Split

/-! Templates that make names: their last part is put together from placeholders and name
characters. -/

namespace StyleSplit

open CommentClass (IsName)
open Text (afterLast isNameChar replaceAll)

namespace Digest

theorem isNameChar_getD {alphabet : List Char} {default : Char}
    (hall : alphabet.all isNameChar = true) (hdefault : isNameChar default = true)
    (value : Nat) : isNameChar (alphabet.getD value default) = true := by
  rw [List.getD_eq_getElem?_getD]
  cases hc : alphabet[value]? with
  | none => exact hdefault
  | some c => exact List.all_eq_true.mp hall c (List.mem_of_getElem? hc)

theorem isNameChar_hexChar (value : Nat) : isNameChar (hexChar value) = true :=
  isNameChar_getD (by decide) (by decide) value

theorem isNameChar_base64Char (value : Nat) : isNameChar (base64Char value) = true :=
  isNameChar_getD (by decide) (by decide) value

theorem all_toBase64 (bytes : List UInt8) : (toBase64 bytes).all isNameChar = true := by
  fun_induction toBase64 bytes with
  | case1 => rfl
  | case2 => simp [isNameChar_base64Char]
  | case3 => simp [isNameChar_base64Char]
  | case4 a b c bytes group ih => simp only [List.all_cons, isNameChar_base64Char, ih]; rfl

theorem all_render (format : DigestFormat) (bytes : List UInt8) :
    (render format bytes).all isNameChar = true := by
  cases format with
  | hex => simp [render, toHex, List.all_flatMap, isNameChar_hexChar]
  | base64 => exact all_toBase64 bytes

theorem render_ne_nil (format : DigestFormat) {bytes : List UInt8} (h : bytes ≠ []) :
    render format bytes ≠ [] := by
  cases format with
  | hex =>
      obtain ⟨byte, bytes, rfl⟩ := List.exists_cons_of_ne_nil h
      exact List.cons_ne_nil _ _
  | base64 =>
      match bytes, h with
      | [_], _ => exact List.cons_ne_nil _ _
      | [_, _], _ => exact List.cons_ne_nil _ _
      | _ :: _ :: _ :: _, _ => exact List.cons_ne_nil _ _

theorem isNameChar_of_mem_ofContents {contents : String} {options : DigestOptions} {c : Char}
    (h : c ∈ (ofContents contents options).toList) : isNameChar c = true := by
  rw [ofContents, String.toList_ofList] at h
  exact List.all_eq_true.mp (all_render _ _) c (List.mem_of_mem_take h)

theorem ofContents_ne_nil {contents : String} {options : DigestOptions}
    (h : options.length ≠ 0) : (ofContents contents options).toList ≠ [] := by
  rw [ofContents, String.toList_ofList, Ne, List.take_eq_nil_iff, not_or]
  refine ⟨h, render_ne_nil _ ?_⟩
  intro hnil
  have hlength := Sha256.length_hash (Text.utf8 contents.toList)
  rw [hnil] at hlength
  cases hlength

end Digest

namespace Template

/-- What the last part of a template is made of. -/
inductive Piece where
  | plain (c : Char)
  | name
  | digest

def Piece.pattern : Piece → List Char
  | plain c => [c]
  | name => nameMark
  | digest => hashMark

def Piece.filled (stem hash : List Char) : Piece → List Char
  | plain c => [c]
  | name => stem
  | digest => hash

/-- The last part is made of placeholders and name characters, and the extension. -/
def IsPlain (template : Template) : Prop :=
  ∃ pieces : List Piece, pieces ≠ [] ∧ (∀ c, .plain c ∈ pieces → isNameChar c = true) ∧
    afterLast '/' template.pattern.toList = pieces.flatMap Piece.pattern ++ ".css".toList

theorem stem_eq {name : String} {stem : List Char} (h : name.toList = stem ++ ".css".toList) :
    Template.stem name = stem := by
  rw [Template.stem, h, Text.dropEnd_append]

theorem isPlain_default : IsPlain {} :=
  ⟨[.name], List.cons_ne_nil _ _, by simp, by decide⟩

theorem nameMark_ne_nil : nameMark ≠ [] := by decide

theorem hashMark_ne_nil : hashMark ≠ [] := by decide

theorem head?_nameMark : nameMark.head? = some '[' := by decide

theorem head?_hashMark : hashMark.head? = some '[' := by decide

theorem hashMark_eq : hashMark = '[' :: hashMark.tail := by decide

theorem startsWith_nameMark_hashMark (rest : List Char) :
    Text.startsWith nameMark ('[' :: (hashMark.tail ++ rest)) = false := by
  have hname : nameMark = '[' :: 'n' :: nameMark.tail.tail := by decide
  have hhash : hashMark.tail = 'c' :: hashMark.tail.tail := by decide
  rw [hname, hhash]
  rfl

theorem head?_ne {mark : List Char} (hmark : mark.head? = some '[') {c : Char} (hc : c ≠ '[') :
    mark.head? ≠ some c := by
  rw [hmark]
  rintro ⟨⟩
  exact hc rfl

theorem ne_bracket_of_isNameChar {c : Char} (hc : isNameChar c = true) : c ≠ '[' := by
  rintro rfl
  exact absurd hc (by decide)

theorem ne_bracket_of_mem_tail {c : Char} (hc : c ∈ hashMark.tail) : c ≠ '[' := by
  rintro rfl
  exact absurd hc (by decide)

section Filled

variable {pieces : List Piece} {stem : List Char}

theorem replaceAll_nameMark (hplain : ∀ c, .plain c ∈ pieces → c ≠ '[') (rest : List Char) :
    replaceAll nameMark stem (pieces.flatMap Piece.pattern ++ rest) =
      pieces.flatMap (Piece.filled stem hashMark) ++ replaceAll nameMark stem rest := by
  apply Text.replaceAll_flatMap
  intro piece hpiece rest
  cases piece with
  | plain c =>
      refine Text.replaceAll_append_of_forall_ne nameMark_ne_nil ?_ stem rest
      exact List.forall_mem_singleton.mpr (head?_ne head?_nameMark (hplain c hpiece))
  | name => exact Text.replaceAll_pattern_append nameMark_ne_nil stem rest
  | digest =>
      change replaceAll nameMark stem (hashMark ++ rest) = hashMark ++ _
      rw [hashMark_eq, List.cons_append, Text.replaceAll_cons (startsWith_nameMark_hashMark rest),
        Text.replaceAll_append_of_forall_ne nameMark_ne_nil
          fun c hc => head?_ne head?_nameMark (ne_bracket_of_mem_tail hc)]
      rfl

theorem replaceAll_hashMark (hplain : ∀ c, .plain c ∈ pieces → c ≠ '[')
    (hstem : ∀ c ∈ stem, c ≠ '[') (hash rest : List Char) :
    replaceAll hashMark hash (pieces.flatMap (Piece.filled stem hashMark) ++ rest) =
      pieces.flatMap (Piece.filled stem hash) ++ replaceAll hashMark hash rest := by
  apply Text.replaceAll_flatMap
  intro piece hpiece rest
  cases piece with
  | plain c =>
      refine Text.replaceAll_append_of_forall_ne hashMark_ne_nil ?_ hash rest
      exact List.forall_mem_singleton.mpr (head?_ne head?_hashMark (hplain c hpiece))
  | name =>
      exact Text.replaceAll_append_of_forall_ne hashMark_ne_nil
        (fun c hc => head?_ne head?_hashMark (hstem c hc)) hash rest
  | digest => exact Text.replaceAll_pattern_append hashMark_ne_nil hash rest

theorem flatMap_filled_of_not_mem (h : .digest ∉ pieces) (hash : List Char) :
    pieces.flatMap (Piece.filled stem hashMark) = pieces.flatMap (Piece.filled stem hash) := by
  apply List.flatMap_congr
  intro piece hpiece
  cases piece with
  | plain => rfl
  | name => rfl
  | digest => exact absurd hpiece h

theorem isName_filled (hpieces : pieces ≠ [])
    (hplain : ∀ c, .plain c ∈ pieces → isNameChar c = true)
    (hstem : stem ≠ [] ∧ ∀ c ∈ stem, isNameChar c = true) {hash : List Char}
    (hhash : hash ≠ [] ∧ ∀ c ∈ hash, isNameChar c = true) :
    IsName (pieces.flatMap (Piece.filled stem hash) ++ ".css".toList) := by
  refine ⟨_, ?_, ?_, rfl⟩
  · obtain ⟨piece, pieces, rfl⟩ := List.exists_cons_of_ne_nil hpieces
    rw [List.flatMap_cons]
    apply List.append_ne_nil_of_left_ne_nil
    cases piece with
    | plain c => exact List.cons_ne_nil _ _
    | name => exact hstem.1
    | digest => exact hhash.1
  · intro c hc
    obtain ⟨piece, hpiece, hc⟩ := List.mem_flatMap.mp hc
    cases piece with
    | plain d =>
        cases List.mem_singleton.mp hc
        exact hplain c hpiece
    | name => exact hstem.2 c hc
    | digest => exact hhash.2 c hc

end Filled

theorem replaceAll_extension {mark : List Char} (hmark : mark.head? = some '[')
    (replacement : List Char) :
    replaceAll mark replacement ".css".toList = ".css".toList := by
  have hne : mark ≠ [] := by
    rintro rfl
    cases hmark
  have hchars : ∀ c ∈ ".css".toList, mark.head? ≠ some c := by
    intro c hc hhead
    cases Option.some.inj (hmark.symm.trans hhead)
    exact absurd hc (by decide)
  have hall := Text.replaceAll_append_of_forall_ne hne hchars replacement []
  rwa [Text.replaceAll_nil, List.append_nil] at hall

theorem extension_eq : ".css".toList = '.' :: "css".toList := by decide

theorem extension_isSuffix_replaceAll {mark text : List Char} (hmark : mark.head? = some '[')
    (hdot : '.' ∉ mark) (replacement : List Char) (htext : ".css".toList <:+ text) :
    ".css".toList <:+ replaceAll mark replacement text := by
  obtain ⟨first, rfl⟩ := htext
  have hne : mark ≠ [] := by
    rintro rfl
    cases hmark
  have hhead : mark.head? ≠ some '.' := by
    rw [hmark]
    decide
  have hhere := Text.startsWith_eq_false_of_head? hhead hne "css".toList
  rw [extension_eq, Text.replaceAll_append_cons hdot hne, ← Text.replaceAll_cons hhere,
    ← extension_eq, replaceAll_extension hmark]
  exact List.suffix_append _ _

theorem extension_isSuffix_apply {template : Template}
    (h : ".css".toList <:+ template.pattern.toList) (name contents : String)
    (options : DigestOptions) :
    ".css".toList <:+ (template.apply name contents options).toList := by
  have hnamed := extension_isSuffix_replaceAll head?_nameMark (by decide) (stem name) h
  have htext : (template.apply name contents options).toList = if template.usesHash then
      replaceAll hashMark (Digest.ofContents contents options).toList
        (replaceAll nameMark (stem name) template.pattern.toList)
      else replaceAll nameMark (stem name) template.pattern.toList := String.toList_ofList
  rw [htext]
  split
  · exact extension_isSuffix_replaceAll head?_hashMark (by decide) _ hnamed
  · exact hnamed

theorem slash_not_mem {text : List Char} (h : ∀ c ∈ text, isNameChar c = true) : '/' ∉ text :=
  fun hmem => absurd (h _ hmem) (by decide)

theorem usesHash_of_mem {template : Template} {pieces : List Piece} {first last : List Char}
    (hpattern : template.pattern.toList = first ++ (pieces.flatMap Piece.pattern ++ last))
    (hdigest : .digest ∈ pieces) : template.usesHash = true := by
  obtain ⟨before, after, rfl⟩ := List.append_of_mem hdigest
  have hmark : template.pattern.toList = (first ++ before.flatMap Piece.pattern) ++ hashMark ++
      (after.flatMap Piece.pattern ++ last) := by
    rw [hpattern]
    simp [Piece.pattern]
  rw [usesHash, hmark]
  exact Text.contains_append ..

/-- The last part of a name is the last part of the template, with its pieces filled in. -/
theorem afterLast_apply {template : Template} {pieces : List Piece} {name contents : String}
    {options : DigestOptions} (hplain : ∀ c, .plain c ∈ pieces → isNameChar c = true)
    (hlast : afterLast '/' template.pattern.toList =
      pieces.flatMap Piece.pattern ++ ".css".toList)
    (hstem : ∀ c ∈ stem name, isNameChar c = true) :
    afterLast '/' (template.apply name contents options).toList =
      pieces.flatMap (Piece.filled (stem name) (Digest.ofContents contents options).toList) ++
        ".css".toList := by
  have hpieces := fun c hc => ne_bracket_of_isNameChar (hplain c hc)
  have hnamed : afterLast '/' (replaceAll nameMark (stem name) template.pattern.toList) =
      pieces.flatMap (Piece.filled (stem name) hashMark) ++ ".css".toList := by
    rw [Text.afterLast_replaceAll nameMark_ne_nil (by decide) (slash_not_mem hstem),
      hlast, replaceAll_nameMark hpieces, replaceAll_extension head?_nameMark]
  have hhash := fun c => @Digest.isNameChar_of_mem_ofContents contents options c
  rw [apply, String.toList_ofList]
  cases huses : template.usesHash with
  | true =>
      rw [if_pos rfl, Text.afterLast_replaceAll hashMark_ne_nil (by decide)
        (slash_not_mem hhash), hnamed,
        replaceAll_hashMark hpieces fun c hc => ne_bracket_of_isNameChar (hstem c hc),
        replaceAll_extension head?_hashMark]
  | false =>
      rw [if_neg (by decide), hnamed, flatMap_filled_of_not_mem]
      intro hdigest
      obtain ⟨first, hfirst⟩ := Text.exists_append_afterLast '/' template.pattern.toList
      rw [hlast] at hfirst
      rw [usesHash_of_mem hfirst hdigest] at huses
      cases huses

theorem IsPlain.isName_apply {template : Template} (h : template.IsPlain) {name : String}
    (hname : IsName name.toList) (contents : String) {options : DigestOptions}
    (hlength : options.length ≠ 0) :
    IsName (afterLast '/' (template.apply name contents options).toList) := by
  obtain ⟨pieces, hpieces, hplain, hlast⟩ := h
  obtain ⟨stem, hstem, hchars, hcss⟩ := hname
  have hstemOf := stem_eq hcss
  subst hstemOf
  rw [afterLast_apply hplain hlast hchars]
  exact isName_filled hpieces hplain ⟨hstem, hchars⟩
    ⟨Digest.ofContents_ne_nil hlength, fun _ => Digest.isNameChar_of_mem_ofContents⟩

end Template

end StyleSplit

import StyleSplit.Delimiter
import StyleSplit.Proofs.Text.Replace

/-! The grammar of names, and which comments are pragmas. -/

namespace StyleSplit.CommentClass

open Text (after? after?_eq_some_iff isNameChar)

def IsName (name : List Char) : Prop :=
  ∃ stem, stem ≠ [] ∧ (∀ c ∈ stem, isNameChar c = true) ∧ name = stem ++ ".css".toList

theorem takeWhile_stem {stem : List Char} (hstem : ∀ c ∈ stem, isNameChar c = true)
    (rest : List Char) :
    (stem ++ ".css".toList ++ rest).takeWhile isNameChar = stem ∧
      (stem ++ ".css".toList ++ rest).dropWhile isNameChar = ".css".toList ++ rest := by
  rw [List.append_assoc, List.takeWhile_append_of_pos hstem, List.dropWhile_append_of_pos hstem]
  exact ⟨List.append_nil stem, rfl⟩

theorem takeName?_eq_some_iff {text name rest : List Char} :
    takeName? text = some (name, rest) ↔ IsName name ∧ text = name ++ rest := by
  rw [takeName?]
  constructor
  · intro h
    split at h
    · cases h
    · rename_i hstem
      obtain ⟨found, hfound, hpair⟩ := Option.map_eq_some_iff.mp h
      cases hpair
      refine ⟨⟨_, hstem, fun c hc => List.mem_takeWhile_imp hc, rfl⟩, ?_⟩
      rw [List.append_assoc, ← after?_eq_some_iff.mp hfound, List.takeWhile_append_dropWhile]
  · rintro ⟨⟨stem, hnonempty, hstem, rfl⟩, rfl⟩
    obtain ⟨htake, hdrop⟩ := takeWhile_stem hstem rest
    rw [htake, hdrop, if_neg hnonempty, Text.after?_append]
    rfl

/-- A pragma begins with the name of a map; anything may follow it. -/
def IsStale (body : List Char) : Prop :=
  ∃ name rest, IsName name ∧
    body = "# sourceMappingURL=".toList ++ (name ++ (".map".toList ++ rest))

theorem isPragma_iff {text : List Char} : isPragma text = true ↔ IsStale text := by
  rw [isPragma, Option.isSome_iff_exists]
  simp only [Option.bind_eq_bind, Option.bind_eq_some_iff, Prod.exists, after?_eq_some_iff,
    takeName?_eq_some_iff]
  constructor
  · rintro ⟨rest, _, rfl, name, _, ⟨hname, rfl⟩, rfl⟩
    exact ⟨name, rest, hname, rfl⟩
  · rintro ⟨name, rest, hname, rfl⟩
    exact ⟨rest, _, rfl, name, _, ⟨hname, rfl⟩, rfl⟩

/-- A file name that is a name, or begins with the map of one. -/
def NamesMap (file : List Char) : Prop :=
  ∃ name, IsName name ∧ (file = name ∨ ∃ more, file = name ++ (".map".toList ++ more))

theorem append_map_eq_iff {file name rest : List Char} :
    file ++ ".map".toList = name ++ (".map".toList ++ rest) ↔
      file = name ∧ rest = [] ∨
        ∃ more, file = name ++ (".map".toList ++ more) ∧ rest = more ++ ".map".toList := by
  constructor
  · intro h
    rcases List.append_eq_append_iff.mp h with ⟨cut, rfl, hcut⟩ | ⟨cut, rfl, hcut⟩
    · have hlength := congrArg List.length hcut
      simp only [List.length_append] at hlength
      cases List.length_eq_zero_iff.mp (by omega : cut.length = 0)
      cases List.length_eq_zero_iff.mp (by omega : rest.length = 0)
      exact .inl ⟨(List.append_nil file).symm, rfl⟩
    · match cut, hcut with
      | [], hcut => exact .inl ⟨List.append_nil name, by simpa using hcut⟩
      | [_], hcut => simp at hcut
      | [_, _], hcut => simp at hcut
      | [_, _, _], hcut => simp at hcut
      | a :: b :: c :: d :: more, hcut =>
          change '.' :: 'm' :: 'a' :: 'p' :: rest = a :: b :: c :: d :: (more ++ ".map".toList)
            at hcut
          cases hcut
          exact .inr ⟨more, rfl, rfl⟩
  · rintro (⟨rfl, rfl⟩ | ⟨more, rfl, rfl⟩)
    · rw [List.append_nil]
    · simp

theorem delimiter?_hash (keyword : String) (text : List Char) :
    delimiter? keyword ('#' :: text) = none := rfl

def pragmaBody (file : List Char) : List Char :=
  "# sourceMappingURL=".toList ++ (file ++ ".map".toList)

theorem pragmaBody_eq (file : List Char) :
    pragmaBody file = '#' :: (" sourceMappingURL=".toList ++ (file ++ ".map".toList)) := by
  have hfirst : "# sourceMappingURL=".toList = '#' :: " sourceMappingURL=".toList := by
    decide
  exact congrArg (· ++ (file ++ ".map".toList)) hfirst

theorem slash_not_mem_pragmaBody {file : List Char} (h : '/' ∉ file) :
    '/' ∉ pragmaBody file := by
  intro hmem
  rcases List.mem_append.mp hmem with hmem | hmem
  · exact absurd hmem (by decide)
  · rcases List.mem_append.mp hmem with hmem | hmem
    · exact h hmem
    · exact absurd hmem (by decide)

theorem ofBody_pragmaBody (file : List Char) :
    (NamesMap file → ofBody (.ofList (pragmaBody file)) = .stalePragma) ∧
      (¬ NamesMap file → ofBody (.ofList (pragmaBody file)) = .content) := by
  have hpragma : isPragma (pragmaBody file) = true ↔ NamesMap file := by
    have hcancel (name rest : List Char) :
        pragmaBody file = "# sourceMappingURL=".toList ++ (name ++ (".map".toList ++ rest)) ↔
          file ++ ".map".toList = name ++ (".map".toList ++ rest) := List.append_right_inj _
    simp only [isPragma_iff, IsStale, hcancel, append_map_eq_iff]
    constructor
    · rintro ⟨name, rest, hname, ⟨rfl, -⟩ | ⟨more, rfl, -⟩⟩
      · exact ⟨file, hname, .inl rfl⟩
      · exact ⟨name, hname, .inr ⟨more, rfl⟩⟩
    · rintro ⟨name, hname, rfl | ⟨more, rfl⟩⟩
      · exact ⟨file, [], hname, .inl ⟨rfl, rfl⟩⟩
      · exact ⟨name, _, hname, .inr ⟨more, rfl, rfl⟩⟩
  have hnone (keyword : String) : delimiter? keyword (pragmaBody file) = none := by
    rw [pragmaBody_eq, delimiter?_hash]
  have hbody : ofBody (.ofList (pragmaBody file)) =
      if isPragma (pragmaBody file) then .stalePragma else .content := by
    rw [ofBody, String.toList_ofList, hnone, hnone]
  rw [hbody, ← hpragma]
  exact ⟨fun h => if_pos h, fun h => if_neg h⟩

/-- What may stand at the two ends of a delimiter: at most one character of white space. -/
def IsGap (gap : List Char) : Prop :=
  gap = [] ∨ ∃ c, Text.isWhite c = true ∧ gap = [c]

/-- The body of a delimiter with that keyword and name, which it fills. -/
def Delimits (keyword : String) (name body : List Char) : Prop :=
  ∃ before after, IsGap before ∧ IsGap after ∧ IsName name ∧
    body = '!' :: (before ++ (keyword.toList ++ ':' :: (name ++ after)))

theorem dropWhite_eq_nil_iff {text : List Char} : dropWhite text = [] ↔ IsGap text := by
  cases text with
  | nil => exact iff_of_true rfl (.inl rfl)
  | cons c text =>
      rw [dropWhite]
      split
      · rename_i hwhite
        simp [IsGap, hwhite]
      · rename_i hwhite
        simp [IsGap, hwhite]

theorem exists_gap (text : List Char) : ∃ gap, IsGap gap ∧ text = gap ++ dropWhite text := by
  cases text with
  | nil => exact ⟨[], .inl rfl, rfl⟩
  | cons c text =>
      rw [dropWhite]
      split
      · rename_i hwhite
        exact ⟨[c], .inr ⟨c, hwhite, rfl⟩, rfl⟩
      · exact ⟨[], .inl rfl, rfl⟩

theorem dropWhite_append {gap text : List Char} (hgap : IsGap gap)
    (htext : dropWhite text = text) : dropWhite (gap ++ text) = text := by
  rcases hgap with rfl | ⟨c, hwhite, rfl⟩
  · exact htext
  · exact if_pos hwhite

section Keyword

variable {keyword : String} {name body : List Char}

/-- A keyword does not begin with white space, so none of it is taken for the gap. -/
theorem delimiter?_eq_some_iff
    (hkeyword : ∀ rest, dropWhite (keyword.toList ++ rest) = keyword.toList ++ rest)
    {name : String} :
    delimiter? keyword body = some name ↔ Delimits keyword name.toList body := by
  simp only [delimiter?, Option.bind_eq_bind, Option.bind_eq_some_iff, Prod.exists,
    after?_eq_some_iff, takeName?_eq_some_iff]
  constructor
  · rintro ⟨marked, rfl, named, hnamed, found, rest, ⟨hname, rfl⟩, hends⟩
    obtain ⟨before, hbefore, hmarked⟩ := exists_gap marked
    split at hends
    · rename_i hrest
      cases hends
      refine ⟨before, rest, hbefore, dropWhite_eq_nil_iff.mp hrest, ?_, ?_⟩
      · rwa [String.toList_ofList]
      · rw [String.toList_ofList, hmarked, hnamed]
        simp
    · cases hends
  · rintro ⟨before, after, hbefore, hafter, hname, rfl⟩
    refine ⟨before ++ (keyword.toList ++ ':' :: (name.toList ++ after)), rfl, name.toList ++ after,
      ?_, name.toList, after, ⟨hname, rfl⟩, ?_⟩
    · rw [dropWhite_append hbefore (hkeyword _)]
      simp
    · rw [if_pos (dropWhite_eq_nil_iff.mpr hafter), String.ofList_toList]

theorem delimiter?_eq_none_iff
    (hkeyword : ∀ rest, dropWhite (keyword.toList ++ rest) = keyword.toList ++ rest) :
    delimiter? keyword body = none ↔ ∀ name, ¬ Delimits keyword name body := by
  rw [Option.eq_none_iff_forall_ne_some]
  constructor
  · intro hnone name hname
    refine hnone (.ofList name) ((delimiter?_eq_some_iff hkeyword).mpr ?_)
    rwa [String.toList_ofList]
  · intro hnone name hname
    exact hnone name.toList ((delimiter?_eq_some_iff hkeyword).mp hname)

theorem Delimits.unique {other : List Char}
    (hkeyword : ∀ rest, dropWhite (keyword.toList ++ rest) = keyword.toList ++ rest)
    (h : Delimits keyword name body) (hother : Delimits keyword other body) : name = other := by
  have hfound {found : List Char} (h : Delimits keyword found body) :
      delimiter? keyword body = some (.ofList found) :=
    (delimiter?_eq_some_iff hkeyword).mpr (by rwa [String.toList_ofList])
  exact String.ofList_injective (Option.some.inj ((hfound h).symm.trans (hfound hother)))

theorem Delimits.not_end (h : Delimits "start" name body) (other : List Char) :
    ¬ Delimits "end" other body := by
  rintro ⟨before, after, hbefore, -, -, hbody⟩
  obtain ⟨first, last, hfirst, -, -, rfl⟩ := h
  have hrest := congrArg dropWhite (List.cons.inj hbody).2
  rw [dropWhite_append hfirst rfl, dropWhite_append hbefore rfl] at hrest
  have hmarks : some 's' = some 'e' := congrArg List.head? hrest
  exact absurd hmarks (by decide)

theorem Delimits.not_isStale (h : Delimits keyword name body) : ¬ IsStale body := by
  obtain ⟨before, after, -, -, -, rfl⟩ := h
  rintro ⟨file, rest, -, hbody⟩
  have hmarks : some '!' = some '#' := congrArg List.head? hbody
  exact absurd hmarks (by decide)

end Keyword

theorem ofBody_eq_iff {body : String} {result : CommentClass} :
    ofBody body = result ↔
      match result with
      | .opening name => delimiter? "start" body.toList = some name
      | .closing name =>
          delimiter? "start" body.toList = none ∧ delimiter? "end" body.toList = some name
      | .stalePragma =>
          delimiter? "start" body.toList = none ∧ delimiter? "end" body.toList = none ∧
            isPragma body.toList = true
      | .content =>
          delimiter? "start" body.toList = none ∧ delimiter? "end" body.toList = none ∧
            isPragma body.toList ≠ true := by
  unfold ofBody
  dsimp only
  cases delimiter? "start" body.toList with
  | some name => cases result <;> simp
  | none =>
      cases delimiter? "end" body.toList with
      | some name => cases result <;> simp
      | none => cases isPragma body.toList <;> cases result <;> simp

theorem isName_iff_opening {name : String} :
    IsName name.toList ↔ ∃ body, ofBody body = .opening name := by
  have hstart (body : String) : ofBody body = .opening name ↔
      Delimits "start" name.toList body.toList :=
    ofBody_eq_iff.trans (delimiter?_eq_some_iff fun _ => rfl)
  simp only [hstart]
  constructor
  · intro hname
    refine ⟨.ofList ('!' :: ("start".toList ++ ':' :: name.toList)), [], [], .inl rfl, .inl rfl,
      hname, ?_⟩
    rw [String.toList_ofList]
    simp
  · rintro ⟨body, -, -, -, -, hname, -⟩
    exact hname

/-- A comment opens or closes a block exactly when its body is a delimiter with that keyword
and name, which it determines; it is a pragma exactly when its body begins as one, and
content otherwise. -/
theorem ofBody_iff (body : String) :
    (∀ name, ofBody body = .opening name ↔ Delimits "start" name.toList body.toList) ∧
      (∀ name, ofBody body = .closing name ↔ Delimits "end" name.toList body.toList) ∧
      (∀ keyword ∈ ["start", "end"], ∀ name other, Delimits keyword name body.toList →
        Delimits keyword other body.toList → name = other) ∧
      (ofBody body = .stalePragma ↔ IsStale body.toList) ∧
      (ofBody body = .content ↔ (∀ keyword ∈ ["start", "end"], ∀ name,
        ¬ Delimits keyword name body.toList) ∧ ¬ IsStale body.toList) := by
  have hkeywords : ∀ keyword ∈ ["start", "end"], ∀ rest,
      dropWhite (keyword.toList ++ rest) = keyword.toList ++ rest :=
    List.forall_mem_cons.mpr ⟨fun _ => rfl, List.forall_mem_singleton.mpr fun _ => rfl⟩
  have hsome := fun keyword hkeyword name =>
    @delimiter?_eq_some_iff keyword body.toList (hkeywords keyword hkeyword) name
  have hnone := fun keyword hkeyword =>
    @delimiter?_eq_none_iff keyword body.toList (hkeywords keyword hkeyword)
  refine ⟨?_, ?_, ?_, ?_, ?_⟩
  · intro name
    exact ofBody_eq_iff.trans (hsome "start" (by simp) name)
  · intro name
    rw [ofBody_eq_iff]
    dsimp only
    rw [hnone "start" (by simp), hsome "end" (by simp)]
    exact and_iff_right_of_imp fun h other hother => hother.not_end _ h
  · intro keyword hkeyword name other
    exact Delimits.unique (hkeywords keyword hkeyword)
  · rw [ofBody_eq_iff]
    dsimp only
    rw [hnone "start" (by simp), hnone "end" (by simp), isPragma_iff]
    constructor
    · rintro ⟨-, -, hstale⟩
      exact hstale
    · intro hstale
      exact ⟨fun _ h => h.not_isStale hstale, fun _ h => h.not_isStale hstale, hstale⟩
  · rw [ofBody_eq_iff]
    dsimp only
    rw [hnone "start" (by simp), hnone "end" (by simp), Ne, isPragma_iff, List.forall_mem_cons,
      List.forall_mem_singleton, and_assoc]

theorem ofBody_iff_spaced :
    ofBody "!\u2003start:a_-2.css\n" = .opening "a_-2.css" ∧
      ∀ other, Delimits "start" other "!\u2003start:a_-2.css\n".toList →
        "a_-2.css".toList = other := by
  have hbody : Delimits "start" "a_-2.css".toList "!\u2003start:a_-2.css\n".toList :=
    ⟨['\u2003'], ['\n'], .inr ⟨'\u2003', by decide, rfl⟩, .inr ⟨'\n', by decide, rfl⟩,
      ⟨"a_-2".toList, by decide, List.all_eq_true.mp (by decide), by decide⟩, by decide⟩
  obtain ⟨hopening, -, hunique, -, -⟩ := ofBody_iff "!\u2003start:a_-2.css\n"
  exact ⟨(hopening "a_-2.css").mpr hbody,
    fun other hother => hunique "start" (by simp) _ other hbody hother⟩

end StyleSplit.CommentClass

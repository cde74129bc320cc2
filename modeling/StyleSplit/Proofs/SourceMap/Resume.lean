import StyleSplit.Proofs.Text.Split
import StyleSplit.SourceMap.Mappings

/-! Decoding mappings from the middle of a line on, one segment or separator at a
time. -/

namespace StyleSplit.Segment

open Text (splitOn)

variable {count : Nat}

/-- Reads on where the next segment counts from the given sums and column. The
first line that this gives is the rest of the line begun. -/
def resume (count : Nat) (sums : Sums) (generated : Nat) (text : List Char) :
    Except MapError (List (List (Segment count))) :=
  match splitOn ';' text with
  | [] => .ok []
  | line :: lines => do
      let (sums, segments) ← ofParts count sums generated (splitOn ',' line)
      return segments :: (← ofLines count sums lines)

theorem ofLines_splitOn (sums : Sums) (text : List Char) :
    ofLines count sums (splitOn ';' text) = resume count sums 0 text := by
  unfold resume
  obtain ⟨line, lines, hlines⟩ := Text.exists_splitOn ';' text
  rw [hlines]
  rfl

theorem resume_semicolon (sums : Sums) (generated : Nat) (text : List Char) :
    resume count sums generated (';' :: text) =
      (resume count sums 0 text).map ([] :: ·) := by
  rw [← ofLines_splitOn, resume, Text.splitOn_separator]
  change ofLines count sums (splitOn ';' text) >>= _ = _
  cases ofLines count sums (splitOn ';' text) <;> rfl

theorem resume_replicate (sums : Sums) (generated lines : Nat) (text : List Char) :
    resume count sums generated (List.replicate (lines + 1) ';' ++ text) =
      (resume count sums 0 text).map (List.replicate (lines + 1) [] ++ ·) := by
  induction lines generalizing generated with
  | zero => exact resume_semicolon sums generated text
  | succ lines ih =>
      rw [List.replicate_succ, List.cons_append, resume_semicolon, ih]
      cases resume count sums 0 text <;> rfl

theorem resume_comma (sums : Sums) (generated : Nat) (text : List Char) :
    resume count sums generated (',' :: text) = resume count sums generated text := by
  obtain ⟨line, lines, hlines⟩ := Text.exists_splitOn ';' text
  have hcomma : splitOn ';' (',' :: text) = (',' :: line) :: lines := by
    have hsplit : splitOn ';' ([','] ++ text) =
        (splitOn ';' text).modifyHead ([','] ++ ·) :=
      Text.splitOn_append (by decide) text
    rw [hlines] at hsplit
    exact hsplit
  rw [resume, resume, hcomma, hlines]
  dsimp only
  rw [Text.splitOn_separator, ofParts]

def Ends (text : List Char) : Prop :=
  ∀ c ∈ text.head?, c = ',' ∨ c = ';'

theorem Ends.exists_splitOn {text : List Char} (h : Ends text) :
    ∃ line lines parts, splitOn ';' text = line :: lines ∧ splitOn ',' line = [] :: parts := by
  cases text with
  | nil => exact ⟨[], [], [], rfl, rfl⟩
  | cons c text =>
      rcases h c rfl with rfl | rfl
      · obtain ⟨line, lines, hlines⟩ := Text.exists_splitOn ';' text
        have hsplit : splitOn ';' ([','] ++ text) =
            (splitOn ';' text).modifyHead ([','] ++ ·) :=
          Text.splitOn_append (by decide) text
        rw [hlines] at hsplit
        exact ⟨',' :: line, lines, splitOn ',' line, hsplit, Text.splitOn_separator ..⟩
      · exact ⟨[], splitOn ';' text, [], Text.splitOn_separator .., rfl⟩

theorem resume_segment {sums : Sums} {generated : Nat} {first text : List Char}
    (hne : first ≠ []) (hsemicolon : ';' ∉ first) (hcomma : ',' ∉ first) (hends : Ends text) :
    resume count sums generated (first ++ text) = do
      let step ← ofFields count sums generated (← decodeFields first)
      let lines ← resume count step.sums step.generated text
      return lines.modifyHead (step.segment :: ·) := by
  obtain ⟨line, lines, parts, hlines, hparts⟩ := hends.exists_splitOn
  obtain ⟨c, rest, rfl⟩ := List.exists_cons_of_ne_nil hne
  rw [resume, Text.splitOn_append hsemicolon, hlines, List.modifyHead_cons]
  dsimp only
  rw [Text.splitOn_append hcomma, hparts, List.modifyHead_cons, List.append_nil]
  unfold resume
  rw [hlines]
  dsimp only
  rw [hparts, ofParts]
  · simp only [ofParts, bind_assoc, pure_bind]
    rfl
  · exact hne

end StyleSplit.Segment

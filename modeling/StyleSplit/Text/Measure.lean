/-! Lengths of text in UTF-8 bytes and UTF-16 units, and cutting at a byte offset. -/

namespace StyleSplit.Text

def byteLength (text : List Char) : Nat :=
  text.foldr (fun c length => c.utf8Size + length) 0

/-- The UTF-16 units of a character: two outside the basic plane. -/
def unitSize (c : Char) : Nat :=
  if c.toNat < 0x10000 then 1 else 2

def unitLength (text : List Char) : Nat :=
  text.foldr (fun c length => unitSize c + length) 0

def utf8 (text : List Char) : List UInt8 :=
  text.flatMap String.utf8EncodeChar

/-- The text before and after a byte offset; `none` when the offset lies
past the end or inside a character. -/
def cut? : List Char → Nat → Option (List Char × List Char)
  | text, 0 => some ([], text)
  | [], _ + 1 => none
  | c :: text, offset + 1 =>
      if c.utf8Size ≤ offset + 1 then
        (cut? text (offset + 1 - c.utf8Size)).map fun (before, after) =>
          (c :: before, after)
      else none

def slice? (text : List Char) (start stop : Nat) : Option (List Char) := do
  let (_, after) ← cut? text start
  if stop < start then none
  else
    let (within, _) ← cut? after (stop - start)
    some within

@[simp] theorem byteLength_nil : byteLength [] = 0 := rfl

@[simp] theorem byteLength_cons (c : Char) (text : List Char) :
    byteLength (c :: text) = c.utf8Size + byteLength text := rfl

@[simp] theorem byteLength_append (first second : List Char) :
    byteLength (first ++ second) = byteLength first + byteLength second := by
  induction first with
  | nil => simp
  | cons c first ih =>
      rw [List.cons_append, byteLength_cons, byteLength_cons, ih, Nat.add_assoc]

@[simp] theorem unitLength_nil : unitLength [] = 0 := rfl

@[simp] theorem unitLength_cons (c : Char) (text : List Char) :
    unitLength (c :: text) = unitSize c + unitLength text := rfl

@[simp] theorem unitLength_append (first second : List Char) :
    unitLength (first ++ second) = unitLength first + unitLength second := by
  induction first with
  | nil => simp
  | cons c first ih =>
      rw [List.cons_append, unitLength_cons, unitLength_cons, ih, Nat.add_assoc]

theorem cut?_byteLength (before after : List Char) :
    cut? (before ++ after) (byteLength before) = some (before, after) := by
  induction before with
  | nil => cases after <;> rfl
  | cons c before ih =>
      have hpos := c.utf8Size_pos
      obtain ⟨size, hsize⟩ : ∃ size, byteLength (c :: before) = size + 1 :=
        ⟨byteLength (c :: before) - 1, by rw [byteLength_cons]; omega⟩
      rw [List.cons_append, hsize, cut?]
      rw [byteLength_cons] at hsize
      rw [if_pos (by omega)]
      have hrest : size + 1 - c.utf8Size = byteLength before := by omega
      simp [hrest, ih]

theorem eq_of_cut? {text before after : List Char} {offset : Nat}
    (h : cut? text offset = some (before, after)) :
    text = before ++ after ∧ byteLength before = offset := by
  induction text generalizing before offset with
  | nil =>
      cases offset with
      | zero => simp [cut?] at h; simp [h]
      | succ offset => simp [cut?] at h
  | cons c text ih =>
      cases offset with
      | zero => simp [cut?] at h; simp [h.1, ← h.2]
      | succ offset =>
          rw [cut?] at h
          split at h
          · rename_i hle
            obtain ⟨⟨first, second⟩, hcut, heq⟩ := Option.map_eq_some_iff.mp h
            cases heq
            obtain ⟨rfl, hlength⟩ := ih hcut
            simp [hlength]
            omega
          · simp at h

end StyleSplit.Text

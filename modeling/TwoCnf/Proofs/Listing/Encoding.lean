import TwoCnf.Listing.Reader

/-!
# Encoding — a text and its bytes are read alike

* `lines_flatMap_code` — a code that keeps end marks apart from everything else keeps the lines;
* `ne_of_mem_utf8EncodeChar` — the end mark is in the code of no other character;
* `decode_encode`, `parseBytes_toUTF8` — each line is decoded to what it was, so the bytes of a text are
  read as the text is.
-/

namespace TwoCnf

/-! ## Lines under a code -/

namespace Text

variable {α β : Type} {isEnd : α → Bool} {isMark : β → Bool} {code : α → List β}

/-- A stretch without a mark goes to the first line of what follows it. -/
theorem lines_append_stretch {stretch : List β} (hne : stretch ≠ [])
    (hstretch : ∀ y ∈ stretch, isMark y = false) (rest : List β) :
    lines isMark (stretch ++ rest) =
      match lines isMark rest with
      | [] => [stretch]
      | line :: later => (stretch ++ line) :: later := by
  induction stretch with
  | nil =>
      exact absurd rfl hne
  | cons y stretch ih =>
      have hy : isMark y = false := hstretch y List.mem_cons_self
      rw [List.cons_append, lines_cons]
      unfold consLine
      rw [if_neg (by simp [hy])]
      cases stretch with
      | nil =>
          rfl
      | cons z stretch =>
          rw [ih (List.cons_ne_nil _ _) fun w hw => hstretch w (List.mem_cons_of_mem y hw)]
          cases lines isMark rest <;> rfl

theorem lines_flatMap_code (hend : ∀ x, isEnd x = true → ∃ y, code x = [y] ∧ isMark y = true)
    (hother : ∀ x, isEnd x = false → code x ≠ [] ∧ ∀ y ∈ code x, isMark y = false) (xs : List α) :
    lines isMark (xs.flatMap code) = (lines isEnd xs).map fun line => line.flatMap code := by
  induction xs with
  | nil =>
      rfl
  | cons x xs ih =>
      rw [List.flatMap_cons, lines_cons]
      unfold consLine
      cases hx : isEnd x with
      | true =>
          rcases hend x hx with ⟨y, hy, hmark⟩
          rw [hy, List.singleton_append, lines_cons, ih]
          exact if_pos hmark
      | false =>
          rcases hother x hx with ⟨hne, hstretch⟩
          rw [lines_append_stretch hne hstretch, ih]
          cases lines isEnd xs with
          | nil =>
              simp
          | cons line later =>
              simp

end Text

/-! ## UTF-8 -/

namespace Listing

open Text

/-- The bytes of other characters are larger, or are the character itself. -/
theorem ne_of_mem_utf8EncodeChar {c : Char} (hc : c ≠ '\n') :
    ∀ b ∈ String.utf8EncodeChar c, b ≠ 10 := by
  have hval : c.val.toNat ≠ 10 := by
    intro h
    exact hc (Char.ext (UInt32.toNat_inj.1 h))
  have hbyte : ∀ n, n % 256 ≠ 10 → UInt8.ofNat n ≠ 10 := by
    intro n hn h
    apply hn
    rw [← UInt8.toNat_ofNat', h]
    rfl
  unfold String.utf8EncodeChar
  simp only
  split
  · simp only [List.mem_singleton, forall_eq]
    exact hbyte _ (by omega)
  · split
    · simp only [List.mem_cons, List.not_mem_nil, or_false, forall_eq_or_imp, forall_eq]
      exact ⟨hbyte _ (by omega), hbyte _ (by omega)⟩
    · split
      · simp only [List.mem_cons, List.not_mem_nil, or_false, forall_eq_or_imp, forall_eq]
        exact ⟨hbyte _ (by omega), hbyte _ (by omega), hbyte _ (by omega)⟩
      · simp only [List.mem_cons, List.not_mem_nil, or_false, forall_eq_or_imp, forall_eq]
        exact ⟨hbyte _ (by omega), hbyte _ (by omega), hbyte _ (by omega), hbyte _ (by omega)⟩

theorem decode_encode (cs : List Char) : decode (cs.flatMap String.utf8EncodeChar) = some cs := by
  have hbytes : (⟨(cs.flatMap String.utf8EncodeChar).toArray⟩ : ByteArray) =
      (String.ofList cs).toByteArray := by
    rw [String.toByteArray_ofList]
    apply ByteArray.ext
    simp [List.utf8Encode]
  unfold decode String.fromUTF8?
  rw [hbytes, dif_pos (String.ofList cs).isValidUTF8]
  show some (String.ofList cs).toList = _
  rw [String.toList_ofList]

theorem toList_data_toUTF8 (text : String) :
    text.toUTF8.data.toList = text.toList.flatMap String.utf8EncodeChar := by
  show text.toByteArray.data.toList = _
  rw [← String.utf8Encode_toList]
  simp [List.utf8Encode]

/-- The bytes of a text are read as the text is. -/
theorem parseBytes_toUTF8 (text : String) : parseBytes text.toUTF8 = parse text := by
  have hend : ∀ c : Char, (c == '\n') = true →
      ∃ b, String.utf8EncodeChar c = [b] ∧ (b == (10 : UInt8)) = true := by
    intro c hc
    rw [beq_iff_eq] at hc
    exact ⟨10, by rw [hc]; rfl, rfl⟩
  have hother : ∀ c : Char, (c == '\n') = false → String.utf8EncodeChar c ≠ [] ∧
      ∀ b ∈ String.utf8EncodeChar c, (b == (10 : UInt8)) = false := by
    intro c hc
    refine ⟨String.utf8EncodeChar_ne_nil, ?_⟩
    intro b hb
    exact beq_false_of_ne (ne_of_mem_utf8EncodeChar (ne_of_beq_false hc) b hb)
  unfold parseBytes parse
  rw [toList_data_toUTF8, lines_flatMap_code hend hother, List.map_map]
  congr 2
  funext line
  exact decode_encode line

end Listing
end TwoCnf

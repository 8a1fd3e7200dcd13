import Mapsto.Interactive
import Mapsto.Proofs.Expansion.Plain

/-!
# `Mapsto.Proofs.Text.Bytes` — the lines of a text and those of its bytes

An interactive session is handed bytes, and cuts them into lines before it knows whether they are a text.
If they are one, the lines are those of the text (`inputLines_toUTF8`): the byte that ends a line is the
whole of that character, and no other character has it among its bytes (`mem_utf8EncodeChar_ten`), so that
cutting and writing in bytes may be done in either order (`splitAfter_flatMap`).
-/

namespace Mapsto

namespace Text

variable {α β : Type} {ends : α → Bool}

/-- Elements that end nothing belong to the piece behind them. -/
theorem splitAfter_append_of_not_end {front : List α} (hfront : ∀ a ∈ front, ¬ ends a = true)
    (hne : front ≠ []) (as : List α) :
    splitAfter ends (front ++ as) =
      (front ++ (splitAfter ends as).headD []) :: (splitAfter ends as).tail := by
  induction front with
  | nil => exact absurd rfl hne
  | cons a front ih =>
      obtain ⟨ha, hfront⟩ := List.forall_mem_cons.mp hfront
      rw [List.cons_append, splitAfter_cons_of_not_end ha]
      cases front with
      | nil => rfl
      | cons b front =>
          rw [ih hfront (List.cons_ne_nil b front), List.headD_cons, List.tail_cons]
          rfl

/-- **Cutting and writing.** Let every element be written as some others: one that ends a piece as a single
one that does so too, any other as some of which none does. Then it makes no difference whether a list is
cut before it is written or afterwards. -/
theorem splitAfter_flatMap {ends' : β → Bool} {written : α → List β}
    (hend : ∀ a, ends a = true → ∃ b, written a = [b] ∧ ends' b = true)
    (hother : ∀ a, ¬ ends a = true → written a ≠ [] ∧ ∀ b ∈ written a, ¬ ends' b = true) (as : List α) :
    splitAfter ends' (as.flatMap written) = (splitAfter ends as).map (List.flatMap written) := by
  induction as with
  | nil => rfl
  | cons a as ih =>
      rw [List.flatMap_cons]
      by_cases ha : ends a = true
      · obtain ⟨b, hb, hends⟩ := hend a ha
        rw [hb, List.singleton_append, splitAfter_cons_of_end hends, splitAfter_cons_of_end ha, ih]
        simp [hb]
      · obtain ⟨hne, hnone⟩ := hother a ha
        rw [splitAfter_append_of_not_end hnone hne, splitAfter_cons_of_not_end ha, ih]
        cases splitAfter ends as with
        | nil => simp
        | cons piece pieces => simp

/-! ## Bytes -/

theorem toList_eq_data_toList (bytes : ByteArray) : bytes.toList = bytes.data.toList := by
  have hloop : ∀ (i : Nat) (done : List UInt8),
      ByteArray.toList.loop bytes i done = done.reverse ++ bytes.data.toList.drop i := by
    intro i done
    induction i, done using ByteArray.toList.loop.induct bytes with
    | case1 i done hi ih =>
        have hlt : i < bytes.data.toList.length := by simpa using hi
        have hget : bytes.get! i = bytes.data.toList[i] := by
          rw [Array.getElem_toList]
          exact getElem!_pos bytes.data i (by simpa using hi)
        rw [ByteArray.toList.loop, if_pos hi, ih, List.drop_eq_getElem_cons hlt, hget, List.reverse_cons,
          List.append_assoc, List.singleton_append]
    | case2 i done hi =>
        have hle : bytes.data.toList.length ≤ i := by simpa using hi
        rw [ByteArray.toList.loop, if_neg hi, List.drop_eq_nil_of_le hle, List.append_nil]
  rw [ByteArray.toList, hloop]
  rfl

/-- The bytes of a text are those of its characters. -/
theorem toList_toUTF8 (text : String) : text.toUTF8.toList = text.toList.flatMap String.utf8EncodeChar := by
  have hbytes : text.toUTF8 = text.toList.utf8Encode := by
    rw [String.toUTF8_eq_toByteArray, ← String.toByteArray_ofList, String.ofList_toList]
  rw [hbytes, toList_eq_data_toList]
  exact congrArg Array.toList List.data_toByteArray

/-- Reading the bytes of a text gives the text. -/
theorem fromUTF8?_toUTF8 (text : String) : String.fromUTF8? text.toUTF8 = some text := by
  unfold String.fromUTF8?
  rw [String.toUTF8_eq_toByteArray, dif_pos text.isValidUTF8]
  rfl

/-- The bytes of characters are read as these characters. -/
theorem fromUTF8?_flatMap (cs : List Char) :
    String.fromUTF8? ⟨(cs.flatMap String.utf8EncodeChar).toArray⟩ = some (String.ofList cs) := by
  have hbytes : (⟨(cs.flatMap String.utf8EncodeChar).toArray⟩ : ByteArray) = (String.ofList cs).toUTF8 := by
    rw [String.toUTF8_eq_toByteArray, String.toByteArray_ofList]
    exact ByteArray.ext List.data_toByteArray.symm
  rw [hbytes, fromUTF8?_toUTF8]

/-- **The end of a line** is one byte, and only there does this byte occur. -/
theorem mem_utf8EncodeChar_ten {c : Char} (h : 10 ∈ String.utf8EncodeChar c) : c = '\n' := by
  have hmod : ∀ n : Nat, (10 : UInt8) = UInt8.ofNat n → n % 256 = 10 := by
    intro n hn
    have htoNat := congrArg UInt8.toNat hn
    simpa using htoNat.symm
  unfold String.utf8EncodeChar at h
  simp only at h
  split at h
  · -- A character of one byte is that byte.
    have hten := hmod _ (List.mem_singleton.mp h)
    have hval : c.val.toNat = 10 := by omega
    exact Char.ext (UInt32.toNat_inj.mp hval)
  -- All bytes of the other characters are 128 or more.
  split at h
  · simp only [List.mem_cons, List.not_mem_nil, or_false] at h
    rcases h with h | h <;> have hten := hmod _ h <;> omega
  split at h
  · simp only [List.mem_cons, List.not_mem_nil, or_false] at h
    rcases h with h | h | h <;> have hten := hmod _ h <;> omega
  · simp only [List.mem_cons, List.not_mem_nil, or_false] at h
    rcases h with h | h | h | h <;> have hten := hmod _ h <;> omega

end Text

namespace Interactive

open Text

/-- **Lines of input.** An input that is a text is handed over in the lines of the text. -/
theorem inputLines_toUTF8 (text : String) :
    inputLines text.toUTF8 = (lines text.toList).map fun line => some (String.ofList line) := by
  have hcut : splitAfter (· == 10) text.toUTF8.toList =
      (lines text.toList).map (List.flatMap String.utf8EncodeChar) := by
    rw [toList_toUTF8]
    refine splitAfter_flatMap ?_ ?_ text.toList
    · intro c hc
      obtain rfl : c = '\n' := by simpa using hc
      exact ⟨10, by decide, rfl⟩
    · intro c hc
      refine ⟨String.utf8EncodeChar_ne_nil, ?_⟩
      intro b hb hten
      obtain rfl : b = 10 := by simpa using hten
      exact hc (by simpa using mem_utf8EncodeChar_ten hb)
  rw [inputLines, hcut, List.map_map]
  exact List.map_congr_left fun line _ => fromUTF8?_flatMap line

end Interactive

end Mapsto

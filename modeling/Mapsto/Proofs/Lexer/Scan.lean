import Mathlib.Data.String.Basic
import Mapsto.Token.Lexer

/-!
# `Mapsto.Proofs.Lexer.Scan` — reading a text item by item

The facts about single steps of reading that everything about whole texts rests on: neither layout nor
an item reaches beyond the end of the text (`gap_le`, `munch_le`), `scan` goes on item by item, and a
text that starts at another byte reads the same, with its places moved (`scan_moved`).
-/

namespace Mapsto

namespace Lexer

open Text

theorem gap_le (inComment : Bool) (cs : List Char) : gap inComment cs ≤ cs.length := by
  fun_induction gap inComment cs with
  | case1 => exact Nat.le_refl _
  | case2 => exact Nat.zero_le _
  | case3 c cs hc ih => exact Nat.succ_le_succ ih
  | case4 c cs hc ih => exact Nat.succ_le_succ ih
  | case5 cs hc ih => exact Nat.succ_le_succ ih
  | case6 => exact Nat.zero_le _

theorem operator_le (expected : String) (token : Token) (c : Char) (cs : List Char) :
    (operator expected token (c :: cs)).2 ≤ (c :: cs).length := by
  unfold operator
  split
  · rename_i h
    exact (List.isPrefixOf_iff_prefix.mp h).length_le
  · exact Nat.succ_le_succ (Nat.zero_le _)

theorem keyword?_length_le {cs : List Char} {k : String × Token} (h : keyword? cs = some k) :
    k.1.toList.length ≤ cs.length := by
  have hprefix := List.find?_some h
  exact (List.isPrefixOf_iff_prefix.mp hprefix).length_le

/-- A numeral is a part of the text. -/
theorem numeral_append_eq (cs : List Char) : ∃ rest, cs = numeral cs ++ rest := by
  have hsplit : cs.takeWhile isDigit ++ cs.dropWhile isDigit = cs := List.takeWhile_append_dropWhile
  unfold numeral
  split
  · rename_i rest hrest
    refine ⟨rest.dropWhile isDigit, ?_⟩
    rw [List.append_assoc, List.cons_append, List.takeWhile_append_dropWhile, ← hrest, hsplit]
  · refine ⟨cs.dropWhile isDigit, ?_⟩
    rw [List.append_nil, hsplit]

/-- What is read is a part of the text. -/
theorem munch_le (cs : List Char) : (munch cs).2 ≤ cs.length := by
  cases cs with
  | nil => exact Nat.le_refl _
  | cons c cs =>
      simp only [munch]
      split
      · exact operator_le _ _ _ _
      split
      · exact operator_le _ _ _ _
      split
      · rename_i h
        exact keyword?_length_le h
      split
      · exact (List.takeWhile_sublist _).length_le
      split
      · obtain ⟨rest, hrest⟩ := numeral_append_eq (c :: cs)
        have hlen := congrArg List.length hrest
        rw [List.length_append] at hlen
        show (numeral (c :: cs)).length ≤ (c :: cs).length
        omega
      split
      · exact Nat.succ_le_succ (Nat.zero_le _)
      · exact Nat.succ_le_succ (Nat.zero_le _)

end Lexer

namespace Cursor

open Lexer

/-! ## One item after the other -/

theorem scan_of_nil {c : Cursor} (h : c.skipLayout.rest = []) : c.scan = [] := by
  rw [scan]
  split
  · rfl
  · rename_i heq
    rw [h] at heq
    cases heq

theorem scan_of_cons {c : Cursor} {x : Char} {xs : List Char} (h : c.skipLayout.rest = x :: xs) :
    c.scan = c.next.1 :: c.next.2.scan := by
  rw [scan]
  split
  · rename_i heq
    rw [h] at heq
    cases heq
  · rfl

theorem byteLength_append (cs ds : List Char) : byteLength (cs ++ ds) = byteLength cs + byteLength ds := by
  induction cs with
  | nil => exact (Nat.zero_add _).symm
  | cons c cs ih =>
      show c.utf8Size + byteLength (cs ++ ds) = c.utf8Size + byteLength cs + byteLength ds
      rw [ih, Nat.add_assoc]

theorem byteLength_eq_utf8ByteSize (cs : List Char) : byteLength cs = (String.ofList cs).utf8ByteSize := by
  rw [String.utf8ByteSize_ofList]
  induction cs with
  | nil => rfl
  | cons c cs ih => rw [byteLength, ih, String.utf8Len_cons, Nat.add_comm]

/-! ## Texts that start elsewhere -/

/-- A place moved to the right. -/
def moved (n : Nat) (c : Cursor) : Cursor := ⟨c.rest, c.offset + n⟩

end Cursor

/-- A stretch of text moved to the right. -/
def Span.moved (n : Nat) (s : Span) : Span := ⟨s.start + n, s.stop + n⟩

/-- Something read from a text that is moved to the right. -/
def Spanned.moved {α : Type} (n : Nat) (t : Spanned α) : Spanned α := ⟨t.value, t.span.moved n⟩

namespace Cursor

theorem advance_moved (n k : Nat) (c : Cursor) : (c.moved n).advance k = (c.advance k).moved n := by
  unfold advance moved
  rw [Nat.add_right_comm]

theorem skipLayout_moved (n : Nat) (c : Cursor) : (c.moved n).skipLayout = c.skipLayout.moved n :=
  advance_moved n _ c

theorem next_moved (n : Nat) (c : Cursor) : (c.moved n).next = (c.next.1.moved n, c.next.2.moved n) := by
  simp only [next, skipLayout_moved, advance_moved]
  rfl

/-- What is read does not depend on where the text starts, its places apart. -/
theorem scan_moved (n : Nat) (c : Cursor) : (c.moved n).scan = c.scan.map (Spanned.moved n) := by
  induction hlen : c.rest.length using Nat.strongRecOn generalizing c with
  | ind len ih =>
      have hrest : (c.moved n).skipLayout.rest = c.skipLayout.rest := by rw [skipLayout_moved]; rfl
      cases h : c.skipLayout.rest with
      | nil => rw [scan_of_nil h, scan_of_nil (hrest.trans h), List.map_nil]
      | cons x xs =>
          -- Every item takes a character, so the rest is shorter.
          have hlt : c.next.2.rest.length < len := hlen ▸ next_rest_length h
          rw [scan_of_cons h, scan_of_cons (hrest.trans h), next_moved, List.map_cons, ih _ hlt _ rfl]

end Cursor

end Mapsto

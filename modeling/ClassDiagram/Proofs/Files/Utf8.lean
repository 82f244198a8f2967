import ClassDiagram.Files.Workspace
import Mathlib.Data.List.Basic

/-! A text is read back from the bytes that it is written as. -/

namespace ClassDiagram.Files.Workspace

theorem toList_loop (b : ByteArray) (i : Nat) (reversed : List UInt8) :
    ByteArray.toList.loop b i reversed = reversed.reverse ++ b.data.toList.drop i := by
  fun_induction ByteArray.toList.loop b i reversed with
  | case1 i reversed inside ih =>
    have here : i < b.data.toList.length := inside
    have get : b.get! i = b.data.toList[i] := by
      cases b
      exact getElem!_pos _ i inside
    rw [ih, List.reverse_cons, List.append_assoc, List.drop_eq_getElem_cons here, get]
    rfl
  | case2 i reversed outside =>
    rw [List.drop_eq_nil_of_le (Nat.not_lt.mp outside), List.append_nil]

theorem mk_toList (b : ByteArray) : ByteArray.mk b.toList.toArray = b := by
  rw [ByteArray.toList, toList_loop]
  rfl

theorem text?_utf8 (text : String) : text? (utf8 text) = some text := by
  rw [text?, utf8, mk_toList, String.fromUTF8?]
  exact dif_pos text.isValidUTF8

theorem readText_of_utf8 {w : Workspace} {p : Path} {text : String}
    (read : w.read p = .ok (utf8 text)) : w.readText p = .ok text :=
  readText_of_read read (text?_utf8 text)

end ClassDiagram.Files.Workspace

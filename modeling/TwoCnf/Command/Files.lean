import TwoCnf.Text.Decimal

/-!
# Files — reading and writing by path

The commands reach files only through `Files`, a pair of operations in some monad. What a path leads to is
for these operations to say; the commands know their answers only.
-/

namespace TwoCnf

/-- A refusal by the operating system: its text and its number. -/
structure OsError where
  text : String
  code : Nat
  deriving DecidableEq, Repr

namespace OsError

/-- The path leads nowhere. -/
def noSuchFile : OsError :=
  ⟨"No such file or directory", 2⟩

/-- The path goes on after a file. -/
def notADirectory : OsError :=
  ⟨"Not a directory", 20⟩

/-- The path leads to a directory where a file is needed. -/
def isADirectory : OsError :=
  ⟨"Is a directory", 21⟩

/-- The path, or one of its names, has too many bytes. -/
def nameTooLong : OsError :=
  ⟨"File name too long", 36⟩

/-- The wording of a refusal. -/
def message (e : OsError) : String :=
  e.text ++ " (os error " ++ Text.Decimal.natural e.code ++ ")"

end OsError

/-- Why a file's contents are not there: it was not opened, or it was opened and not read. -/
inductive AccessError where
  | opening (e : OsError)
  | reading (e : OsError)
  deriving DecidableEq, Repr

/-- Reading and writing whole files. -/
structure Files (m : Type → Type) where
  read : String → m (Except AccessError ByteArray)
  write : String → String → m (Except OsError Unit)

end TwoCnf

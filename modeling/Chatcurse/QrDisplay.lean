import Mathlib.Data.Bool.Basic

/-!
# The QR code of a login

`display` of `lib/qrcodegen/qrcodegen.cpp` prints a QR code on a terminal with light characters on a
dark background, two modules to a character; `process_auth` (`src/tg.cc`) calls it with the login
link. The text is a list of characters.
-/

namespace Chatcurse

/-- `QrCode` as far as it is printed: the modules by row and column, `true` if dark. -/
structure QrCode where
  size : Nat
  modules : Fin size → Fin size → Bool

namespace QrCode

/-- `getModule`, with `module` behind its bounds. -/
def getModule (q : QrCode) (x y : Int) : Bool :=
  if h : (0 ≤ x ∧ x < q.size) ∧ 0 ≤ y ∧ y < q.size then
    q.modules ⟨y.toNat, by omega⟩ ⟨x.toNat, by omega⟩
  else false

def bsize : Int := 2

def charMap : Fin 4 → Char
  | 0 => '█'
  | 1 => '▀'
  | 2 => '▄'
  | 3 => ' '

/-- The character of two modules, one above the other. -/
def char (upper lower : Bool) : Char :=
  charMap ⟨(upper.toNat <<< 1) + lower.toNat, by cases upper <;> cases lower <;> decide⟩

/-- The values of the loop `for (int i = a; i < b; i += d)`. -/
def forUp (a b d : Int) : List Int :=
  (List.range ((b - a + d - 1) / d).toNat).map fun k : Nat => a + d * k

/-- What `display` prints between the blanks of the line for the rows `i` and `i + 1`. -/
def displayLine (q : QrCode) (i : Int) : List Char :=
  (forUp (-bsize) (q.size + bsize) 1).map fun j =>
    char (q.getModule j i) (if i + 1 < q.size + bsize then q.getModule j (i + 1) else true)

def display (q : QrCode) : List Char :=
  '\n' :: ((forUp (-bsize) (q.size + bsize) 2).flatMap fun i =>
    [' ', ' '] ++ q.displayLine i ++ [' ', ' ', '\n']) ++ ['\n']

end QrCode
end Chatcurse

import Chatcurse.Client
import Chatcurse.Theory.Grid

/-!
# What the writes leave on a window

`draw_side` and `draw_main` write into windows that keep what was written before. ncurses writes a
string cell by cell (`Grid`); each byte but the line feed is taken to be one character of one cell,
as it is for the printable characters of a single-byte encoding.
-/

namespace Chatcurse

structure Cell where
  char : UInt8
  /-- `A_REVERSE` -/
  reversed : Bool
  deriving DecidableEq

def Cell.blank : Cell := ⟨32, false⟩

namespace Client

def Write.item (x : Write) (b : UInt8) : Grid.Item Cell :=
  if b = 10 then .feed else .put ⟨b, x.reversed⟩

/-- `mvwaddstr` at column 0; moving to a row outside the window fails. -/
def Write.addTo (w : Window) (g : Grid Cell) (x : Write) : Grid Cell :=
  if x.row < w.lines.toNat then
    Grid.write w.lines.toNat w.cols.toNat .blank x.row 0 (x.text.map x.item) g
  else g

/-- The window after the writes, in order. -/
def paint (w : Window) (writes : List Write) (g : Grid Cell) : Grid Cell :=
  writes.foldl (Write.addTo w) g

end Client
end Chatcurse

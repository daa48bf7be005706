import TextDomain.Bytes

/-!
# Tags and the markup around them

An open tag is `<?=`, or `<?php` in any letter case with the end of the text, a NUL byte, a space,
a tab or a line end after it, which is not part of the tag (`openTag?`). Everything up to the next
open tag is markup (`html`). A close tag is `?>` together with one line end directly after it
(`closeTag?`).
-/

namespace TextDomain

namespace Markup

/-- What must follow the long open tag. -/
def endsTag (s : Bytes) : Bool :=
  match s with
  | [] => true
  | c :: _ =>
    c == Byte.nul || c == Byte.space || c == Byte.tab || c == Byte.lf || c == Byte.cr

/-- The open tag at the start of a text. -/
def openTag? (s : Bytes) : Option Bytes :=
  if (ascii "<?=").isPrefixOf s then some (s.take 3)
  else if (s.take 5).map Byte.lower = ascii "<?php" ∧ endsTag (s.drop 5) then some (s.take 5)
  else none

/-- The markup before the next open tag. -/
def html : Bytes → Bytes
  | [] => []
  | c :: s => if (openTag? (c :: s)).isSome then [] else c :: html s

/-- The line end at the start of a text: a line feed, or a carriage return and a line feed. -/
def lineEnd (s : Bytes) : Bytes :=
  if s.head? = some Byte.lf then [Byte.lf]
  else if [Byte.cr, Byte.lf].isPrefixOf s then [Byte.cr, Byte.lf]
  else []

/-- The close tag at the start of a text. -/
def closeTag? (s : Bytes) : Option Bytes :=
  (Bytes.after? (ascii "?>") s).map fun rest => ascii "?>" ++ lineEnd rest

end Markup

end TextDomain

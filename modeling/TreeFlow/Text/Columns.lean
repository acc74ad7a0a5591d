import TreeFlow.Text.Emoji
import TreeFlow.Text.Wide

/-!
# Terminal columns

How many columns a text takes in a terminal. Mostly this is the sum over its
characters, but some neighbours are drawn as one: emoji with selectors,
modifiers and joiners, and ligatures of several scripts. The walk goes from
the end of the text to its start and remembers what follows.
-/

set_option autoImplicit false

namespace TreeFlow.Text

/-- The ends of ligatures: letters, or what has been seen of a ligature so
far. -/
inductive Ending where
  | alef
  | lamed
  | subscript
  | ya
  | vowelYa
  | consonant
  | joinedConsonant
  | tone
  | orkhon
  deriving DecidableEq, Repr

/-- What follows a character. A joiner in front of an emoji makes it part of
one picture with what precedes it. -/
inductive Next where
  | plain
  | lineFeed
  | picture
  | modifier
  | flagLetter
  | flagLetters
  | joinedPicture
  | joinedKeycap
  | joinedTag
  | joinedFlagLetter
  | joinedFlag
  | vowelE
  | vowelAi
  | ending (e : Ending) (joiner : Bool)
  deriving DecidableEq, Repr

inductive Selector where
  | text
  | picture
  | fullWidth
  deriving DecidableEq, Repr

structure Tail where
  next : Next
  selector : Option Selector
  deriving DecidableEq, Repr

namespace Next

def isEnding : Next → Bool
  | .ending .. => true
  | _ => false

def isJoined : Next → Bool
  | .joinedPicture | .joinedKeycap => true
  | _ => false

def tail (n : Next) : Tail := ⟨n, none⟩

end Next

def isLam (c : Char) : Bool :=
  inRanges [(0x644, 0x644), (0x6B5, 0x6B8), (0x76A, 0x76A), (0x8A6, 0x8A6), (0x8C7, 0x8C7)] c

def isAlef (c : Char) : Bool :=
  inRanges [(0x622, 0x623), (0x625, 0x625), (0x627, 0x627), (0x671, 0x673), (0x675, 0x675),
    (0x773, 0x774), (0x870, 0x882)] c

/-- Khmer letters that take no column behind the sign that subscripts
them. -/
def isSubscript (c : Char) : Bool :=
  inRanges [(0x1780, 0x1782), (0x1784, 0x1787), (0x1789, 0x178C), (0x178E, 0x1793),
    (0x1795, 0x1798), (0x179B, 0x179D), (0x17A0, 0x17A0), (0x17A2, 0x17A2), (0x17A7, 0x17A7),
    (0x17AB, 0x17AC), (0x17AF, 0x17AF)] c

def isTifinagh (c : Char) : Bool := between 0x2D31 0x2D65 c || c.toNat == 0x2D6F

/-- Hollow characters through which Arabic letters do not join. -/
def blockingRanges : List (Nat × Nat) :=
  [(0x605, 0x605), (0x890, 0x891), (0x8E2, 0x8E2), (0x9BE, 0x9BE), (0x9D7, 0x9D7), (0xB3E, 0xB3E),
    (0xB57, 0xB57), (0xBBE, 0xBBE), (0xBD7, 0xBD7), (0xCC0, 0xCC0), (0xCC2, 0xCC2), (0xCC7, 0xCC8),
    (0xCCA, 0xCCB), (0xCD5, 0xCD6), (0xD3E, 0xD3E), (0xD57, 0xD57), (0xDCF, 0xDCF), (0xDDF, 0xDDF),
    (0x1160, 0x11FF), (0x1715, 0x1715), (0x1734, 0x1734), (0x180E, 0x180E), (0x1B35, 0x1B35),
    (0x1B3B, 0x1B3B), (0x1B3D, 0x1B3D), (0x1B43, 0x1B44), (0x1BAA, 0x1BAA), (0x1BF2, 0x1BF3),
    (0x200C, 0x200D), (0x2065, 0x2069), (0x302E, 0x302F), (0x3164, 0x3164), (0xA8FA, 0xA8FA),
    (0xA953, 0xA953), (0xA9C0, 0xA9C0), (0xD7B0, 0xD7C6), (0xD7CB, 0xD7FB), (0xFF9E, 0xFFA0),
    (0xFFF0, 0xFFF8), (0x111C0, 0x111C0), (0x11235, 0x11235), (0x1133E, 0x1133E),
    (0x1134D, 0x1134D), (0x11357, 0x11357), (0x113B8, 0x113B8), (0x113C2, 0x113C2),
    (0x113C5, 0x113C5), (0x113C7, 0x113C9), (0x113CF, 0x113CF), (0x114B0, 0x114B0),
    (0x114BD, 0x114BD), (0x115AF, 0x115AF), (0x116B6, 0x116B6), (0x11930, 0x11930),
    (0x1193D, 0x1193D), (0x11F41, 0x11F41), (0x16FF0, 0x16FF1), (0x1D165, 0x1D166),
    (0x1D16D, 0x1D172), (0xE0000, 0xE0000), (0xE0002, 0xE001F), (0xE0080, 0xE00FF),
    (0xE01F0, 0xE0FFF)]

def joinsThrough (c : Char) : Bool := isHollow c && !inRanges blockingRanges c

def isInner (c : Char) : Bool :=
  inRanges [(0x34F, 0x34F), (0x17B4, 0x17B5), (0x180B, 0x180D), (0x180F, 0x180F),
    (0xFE00, 0xFE0F), (0xE0100, 0xE01EF)] c

def joiner : Nat := 0x200D

def alone (c : Char) : Int × Next :=
  let next : Next :=
    if isAlef c then .ending .alef false
    else if isSubscript c then .ending .subscript false
    else if isTifinagh c then .ending .consonant false
    else if c.toNat = 0x5DC then .ending .lamed false
    else if c.toNat = 0x1A10 then .ending .ya false
    else if between 0xA4FC 0xA4FD c then .ending .tone false
    else if c.toNat = 0x10C03 then .ending .orkhon false
    else if c.toNat = 0x16D67 then .vowelE
    else if c.toNat = 0x16D68 then .vowelAi
    else if isFlagLetter c then .flagLetter
    else if isModifier c then .modifier
    else if isPicture c then .picture
    else .plain
  (charColumns c, next)

def ligature? (e : Ending) (joined : Bool) (c : Char) : Option (Int × Next) :=
  match e with
  | .alef =>
    if isLam c then some (0, .plain)
    else if joinsThrough c then some (0, .ending .alef joined)
    else none
  | .lamed => if joined ∧ c.toNat = 0x5D0 then some (0, .plain) else none
  | .subscript => if c.toNat = 0x17D2 then some (-1, .plain) else none
  | .ya => if joined ∧ c.toNat = 0x1A17 then some (0, .ending .vowelYa true) else none
  | .vowelYa => if c.toNat = 0x1A15 then some (0, .plain) else none
  | .consonant =>
    if c.toNat = 0x2D7F then some (1, .ending .joinedConsonant true)
    else if joined ∧ isTifinagh c then some (0, .plain)
    else none
  | .joinedConsonant => if isTifinagh c then some (-1, .plain) else none
  | .tone => if between 0xA4F8 0xA4FB c then some (0, .plain) else none
  | .orkhon => if joined ∧ c.toNat = 0x10C32 then some (0, .plain) else none

def together? (n : Next) (c : Char) : Option (Int × Next) :=
  match n with
  | .ending e joined =>
    if e ≠ .alef ∧ c.toNat = joiner then some (0, .ending e true)
    else if e ≠ .alef ∧ isInner c then some (0, n)
    else ligature? e joined c
  | .modifier =>
    if isToned c then some (0, .picture)
    else if c.toNat = joiner then some (0, .joinedPicture)
    else none
  | .picture => if c.toNat = joiner then some (0, .joinedPicture) else none
  | .flagLetter => if isFlagLetter c then some (1, .flagLetters) else none
  | .flagLetters | .joinedFlag =>
    if c.toNat = joiner then some (0, .joinedPicture)
    else if isFlagLetter c then
      some (if n = .joinedFlag then (3, .joinedFlagLetter) else (1, .flagLetters))
    else none
  | .joinedPicture =>
    if c.toNat = 0x20E3 then some (0, .joinedKeycap)
    else if c.toNat = 0xE007F then some (0, .joinedTag)
    else if isFlagLetter c then some (1, .joinedFlagLetter)
    else if isModifier c then some (0, .modifier)
    else if isPicture c then some (0, .picture)
    else none
  | .joinedTag =>
    if isTag c then some (0, .joinedTag)
    else if c.toNat = 0x1F3F4 then some (0, .picture)
    else none
  | .joinedFlagLetter => if isFlagLetter c then some (-1, .joinedFlag) else none
  | .vowelE =>
    if c.toNat = 0x16D67 then some (0, .vowelAi)
    else if c.toNat = 0x16D63 ∨ c.toNat = 0x16D69 then some (0, .plain)
    else none
  | .vowelAi => if c.toNat = 0x16D63 then some (0, .plain) else none
  | .plain | .lineFeed | .joinedKeycap => none

/-- The tail behind a selector. A selector ends what follows, except for
ligatures and, if it asks for a picture, joined pictures. -/
def select (t : Next) (s : Selector) : Tail :=
  ⟨if t.isEnding || (s = .picture && t.isJoined) then t else .plain, some s⟩

def selected? (t : Tail) (c : Char) : Option (Int × Next) :=
  match t.selector with
  | some .picture =>
    if hasPictureForm c then some (if t.next.isJoined then 0 else 2, .picture) else none
  | some .text => if hasTextForm c then some (1, .plain) else none
  | some .fullWidth =>
    if inRanges [(0x2018, 0x2019), (0x201C, 0x201D)] c then some (2, .plain) else none
  | none => none

def Tail.dropped (t : Tail) : Next :=
  if t.selector.isSome && !t.next.isEnding then .plain else t.next

def advance (c : Char) (t : Tail) : Int × Tail :=
  match selected? t c with
  | some (k, n) => (k, n.tail)
  | none =>
    let next := t.dropped
    if c.toNat ≤ 0xA0 then
      if c = '\n' then (1, Next.lineFeed.tail)
      else if c = '\r' ∧ next = .lineFeed then (0, Next.plain.tail)
      else (1, Next.plain.tail)
    else if c.toNat = 0xFE0F then (0, select next .picture)
    else if c.toNat = 0xFE0E then (0, select next .text)
    else if c.toNat = 0xFE01 then (0, select next .fullWidth)
    else
      let (k, n) := (together? next c).getD (alone c)
      (k, n.tail)

def walk : List Char → Int × Tail
  | [] => (0, Next.plain.tail)
  | c :: cs =>
    let (sum, t) := walk cs
    let (k, u) := advance c t
    (sum + k, u)

def columns (s : String) : Nat := (walk s.toList).1.toNat

end TreeFlow.Text

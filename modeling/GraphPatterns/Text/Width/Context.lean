/-
How the columns of a character depend on what stands right of it. A text is measured from its end to
its beginning, so that everything after a character is known when its turn comes: a selector of style,
a skin tone, half a flag, a joiner with an emoji, or a letter that makes a ligature with the letters
before it. `Ahead.place` says how many columns a character adds and what the next one has ahead of it.
-/
import GraphPatterns.Text.Width.Class

namespace GraphPatterns.Text

/-- The two styles of an emoji. -/
inductive Style where
  | text
  | picture
deriving DecidableEq

/-- What has been read between a joiner, which has an emoji after it, and the emoji before it. -/
inductive Tie where
  | nothing
  | keycap
  | indicator
  | indicators (odd : Bool)
  /-- The end of a row of tags, with the tags before it. -/
  | tags (letters digits : Nat)
deriving DecidableEq

/-- A letter that makes a ligature with certain letters before it, some of them only across a joiner. -/
inductive Letter where
  | alef
  | lamed (joined : Bool)
  | ya (joined : Bool)
  /-- The Buginese vowel sign i with a joiner and a ya. -/
  | vowelAndYa
  | consonant (joined : Bool)
  /-- The Tifinagh consonant joiner with a consonant. -/
  | joinerAndConsonant
  /-- The second letter of a Lisu tone. -/
  | tone
  | orkhon (joined : Bool)
  /-- A Khmer letter with a form below the line. -/
  | subscript
deriving DecidableEq

/-- What comes next in a text, as far as it matters to the characters before it. -/
inductive Follower where
  | other
  | skinTone
  | indicator
  | indicators
  | emoji
  | tied (t : Tie)
  | letter (l : Letter)
deriving DecidableEq

/-! ## What follows -/

/-- A letter with a joiner before it. -/
def Letter.withJoiner : Letter → Letter
  | .lamed _ => .lamed true
  | .ya _ => .ya true
  | .consonant _ => .consonant true
  | .orkhon _ => .orkhon true
  | l => l

namespace Follower

def isTied : Follower → Bool
  | .tied _ => true
  | _ => false

def isLetter : Follower → Bool
  | .letter _ => true
  | _ => false

/-- What a character is to the one before it. -/
def ofChar (c : Char) : Follower :=
  let n := c.toNat
  if n < 0x5DC then .other
  else if n == 0x5DC then .letter (.lamed false)
  else if isAlef c then .letter .alef
  else if hasCoengForm c then .letter .subscript
  else if n == 0x1A10 then .letter (.ya false)
  else if isTifinaghConsonant c then .letter (.consonant false)
  else if n == 0xA4FC || n == 0xA4FD then .letter .tone
  else if n == 0x10C03 then .letter (.orkhon false)
  else if isSkinTone c then .skinTone
  else if isIndicator c then .indicator
  else if pictured.contains c then .emoji
  else .other

end Follower

/-! ## Ligatures and sequences -/

/-- The columns that a character adds if it makes a ligature with a letter after it. -/
def Letter.ligature? (c : Char) : Letter → Option (Int × Follower)
  | .alef =>
    if isLam c then some (0, .other)
    else if isTransparent c then some (0, .letter .alef)
    else none
  | l =>
    let n := c.toNat
    if c == joiner then some (0, .letter l.withJoiner)
    else if isHiddenMark c then some (0, .letter l)
    else
      match l with
      | .lamed true => if n == 0x5D0 then some (0, .other) else none
      | .ya true => if n == 0x1A17 then some (0, .letter .vowelAndYa) else none
      | .vowelAndYa => if n == 0x1A15 then some (0, .other) else none
      | .consonant joined =>
        if n == 0x2D7F then some (1, .letter .joinerAndConsonant)
        else if joined && isTifinaghConsonant c then some (0, .other)
        else none
      | .joinerAndConsonant => if isTifinaghConsonant c then some (-1, .other) else none
      | .tone => if 0xA4F8 ≤ n && n ≤ 0xA4FB then some (0, .other) else none
      | .orkhon true => if n == 0x10C32 then some (0, .other) else none
      | .subscript => if n == 0x17D2 then some (-1, .other) else none
      | _ => none

/-- The columns that a character adds if it belongs to an emoji that a joiner ties to the emoji after
it: that emoji has its two columns already. Two indicators make one flag, so a flag that is tied takes
back the column of its second half, and one more indicator gives both back. -/
def Tie.sequence? (c : Char) : Tie → Option (Int × Follower)
  | .nothing =>
    if c == '\u20e3' then some (0, .tied .keycap)
    else if isIndicator c then some (1, .tied .indicator)
    else if isSkinTone c then some (0, .skinTone)
    else if isTagEnd c then some (0, .tied (.tags 0 0))
    else if pictured.contains c then some (0, .emoji)
    else none
  | .keycap => none
  | .indicator => if isIndicator c then some (-1, .tied (.indicators false)) else none
  | .indicators odd =>
    if isIndicator c then some (if odd then -1 else 3, .tied (.indicators !odd))
    else if c == joiner then some (0, .tied .nothing)
    else none
  | .tags letters digits =>
    if isTagLetter c && digits == 0 && letters < 6 then some (0, .tied (.tags (letters + 1) 0))
    else if isTagDigit c && digits < 3 && letters ≤ 4 then
      some (0, .tied (.tags letters (digits + 1)))
    else if isTaggedFlag c && (digits == 3 || (digits == 0 && 3 ≤ letters)) then some (0, .emoji)
    else none

/-- The columns that a character adds if it makes one thing with what follows. -/
def Follower.joined? (c : Char) : Follower → Option (Int × Follower)
  | .other => none
  | .skinTone =>
    if skinToneBase.contains c then some (0, .emoji)
    else if c == joiner then some (0, .tied .nothing)
    else none
  | .indicator => if isIndicator c then some (1, .indicators) else none
  | .indicators =>
    if isIndicator c then some (1, .indicators)
    else if c == joiner then some (0, .tied .nothing)
    else none
  | .emoji => if c == joiner then some (0, .tied .nothing) else none
  | .tied t => t.sequence? c
  | .letter l => l.ligature? c

/-! ## One character -/

/-- What stands right of a place in a text. -/
structure Ahead where
  follower : Follower := .other
  /-- A selector that stands between the place and the follower. -/
  style : Option Style := none

namespace Ahead

/-- A selector before a follower. Ligatures go across it; an emoji may be tied across a selector of
pictures. -/
def select (style : Style) (follower : Follower) : Ahead :=
  let kept := match follower, style with
    | .letter _, _ => true
    | .tied .nothing, .picture => true
    | .tied .keycap, .picture => true
    | _, _ => false
  ⟨if kept then follower else .other, some style⟩

/-- Puts a character before what is there: the columns that it adds, and what is there then. -/
def place (c : Char) (a : Ahead) : Int × Ahead :=
  if a.style == some .picture && styled.contains c then
    (if a.follower.isTied then 0 else 2, ⟨.emoji, none⟩)
  else
    let follower := if a.style == some .picture && !a.follower.isLetter then .other else a.follower
    if c == '\ufe0f' then (0, select .picture follower)
    else if c == '\ufe0e' then (0, select .text follower)
    else if a.style == some .text && isNarrowAsText c then (1, {})
    else
      match follower.joined? c with
      | some (columns, next) => (columns, ⟨next, none⟩)
      | none => (charWidth c, ⟨.ofChar c, none⟩)

end Ahead

end GraphPatterns.Text

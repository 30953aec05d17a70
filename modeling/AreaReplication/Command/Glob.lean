/-!
# Glob patterns

`?` stands for one character, `*` for any run of characters, `[…]` and `[!…]` for one character in
or not in a set, and `**` as a whole path component for any run of components. Separators have no
other special part.
-/
namespace AreaReplication.Glob

inductive Member where
  | single (c : Char)
  | range (first last : Char)
  deriving DecidableEq, Repr

def Member.holds (c : Char) : Member → Bool
  | single d => c = d
  | range first last => first ≤ c && c ≤ last

inductive Token where
  | char (c : Char)
  | anyChar
  | anyRun
  | anyComponents
  | oneOf (members : List Member)
  | noneOf (members : List Member)
  deriving DecidableEq, Repr

inductive PatternError where
  | wildcards (position : Nat)
  | components (position : Nat)
  | set (position : Nat)
  deriving DecidableEq, Repr

def PatternError.message : PatternError → String
  | wildcards position =>
    s!"Pattern syntax error near position {position}: " ++
      "wildcards are either regular `*` or recursive `**`"
  | components position =>
    s!"Pattern syntax error near position {position}: " ++
      "recursive wildcards must form a single path component"
  | set position => s!"Pattern syntax error near position {position}: invalid range pattern"

def members : List Char → List Member
  | a :: '-' :: b :: rest => .range a b :: members rest
  | c :: rest => .single c :: members rest
  | [] => []

/-- The inside of a set that starts with the given text, and what follows its bracket. The first
character always belongs to the set. -/
def setBody : List Char → Option (List Char × List Char)
  | [] => none
  | first :: rest =>
    match rest.dropWhile (· ≠ ']') with
    | _ :: after => some (first :: rest.takeWhile (· ≠ ']'), after)
    | [] => none

def set? : List Char → Option (Token × List Char)
  | '!' :: inside => (setBody inside).map fun (body, rest) => (.noneOf (members body), rest)
  | inside => (setBody inside).map fun (body, rest) => (.oneOf (members body), rest)

/-- The tokens of a text. `position` counts the characters already read, and `previous` is the last
of them. `fuel` bounds the tokens still to come. -/
def tokens : (fuel : Nat) → (position : Nat) → (previous : Option Char) → List Char →
    Except PatternError (List Token)
  | 0, _, _, _ => .ok []
  | _ + 1, _, _, [] => .ok []
  | fuel + 1, position, previous, c :: rest =>
    match c with
    | '?' => return .anyChar :: (← tokens fuel (position + 1) (some c) rest)
    | '*' =>
      let stars := 1 + (rest.takeWhile (· = '*')).length
      let after := rest.dropWhile (· = '*')
      if 2 < stars then
        .error (.wildcards (position + 2))
      else if stars = 1 then
        return .anyRun :: (← tokens fuel (position + 1) (some c) after)
      else if previous.any (· ≠ '/') then
        .error (.components (position - 1))
      else
        match after with
        | [] => return [.anyComponents]
        | '/' :: after =>
          return .anyComponents :: (← tokens fuel (position + 3) (some '/') after)
        | _ => .error (.components (position + 2))
    | '[' =>
      match set? rest with
      | none => .error (.set position)
      | some (token, after) =>
        let read := (c :: rest).length - after.length
        return token :: (← tokens fuel (position + read) (some ']') after)
    | c => return .char c :: (← tokens fuel (position + 1) (some c) rest)

structure Pattern where
  tokens : List Token
  deriving DecidableEq, Repr

def Pattern.ofText (text : String) : Except PatternError Pattern := do
  return ⟨← Glob.tokens text.length 0 none text.toList⟩

/-- For each end of a text, from the whole text to the empty one, whether some description fits. -/
abbrev Fits := List Bool

def fitsEmpty (text : List Char) : Fits := text.map (fun _ => false) ++ [true]

def afterChar (kind : Char → Bool) (text : List Char) (fits : Fits) : Fits :=
  List.zipWith (fun c next => kind c && next) text fits.tail ++ [false]

def afterRun (fits : Fits) : Fits :=
  fits.foldr (fun here later => (here || later.headD false) :: later) []

/-- The ends that are whole components and then an end that fits; the last component needs no
separator behind it. -/
def afterComponents : (text : List Char) → Fits → Fits
  | c :: text, _ :: fits =>
    let later := afterComponents text fits
    ((c = '/' && fits.headD false) || later.headD false) :: later
  | _, fits => fits

def Token.before (text : List Char) (fits : Fits) : Token → Fits
  | char c => afterChar (· = c) text fits
  | anyChar => afterChar (fun _ => true) text fits
  | anyRun => afterRun fits
  | anyComponents => List.zipWith (· || ·) fits (afterComponents text fits)
  | oneOf members => afterChar (fun c => members.any (Member.holds c)) text fits
  | noneOf members => afterChar (fun c => !members.any (Member.holds c)) text fits

/-- Whether the whole text has the form that the tokens describe. All ends of the text are compared
with each token at once, so the work grows with the product of both lengths. -/
def matchTokens (tokens : List Token) (text : List Char) : Bool :=
  (tokens.foldr (fun token fits => token.before text fits) (fitsEmpty text)).headD false

def Pattern.matches (pattern : Pattern) (text : String) : Bool :=
  matchTokens pattern.tokens text.toList

end AreaReplication.Glob

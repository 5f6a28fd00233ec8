/-! Characters by their names: the letters of three alphabets, the digits and the
marks of common use. Names are read in letters of either case. -/

namespace DecimalScript.Text

/-- Characters in a row with one beginning of their names: the first of them, and the ends. -/
structure NameFamily where
  beginning : String
  first : Char
  ends : List String

def latinLetters : List String := ("ABCDEFGHIJKLMNOPQRSTUVWXYZ".toList).map Char.toString

def greekLetters : List String :=
  ["ALPHA", "BETA", "GAMMA", "DELTA", "EPSILON", "ZETA", "ETA", "THETA", "IOTA", "KAPPA", "LAMDA",
   "MU", "NU", "XI", "OMICRON", "PI", "RHO", "FINAL SIGMA", "SIGMA", "TAU", "UPSILON", "PHI", "CHI",
   "PSI", "OMEGA"]

def cyrillicLetters : List String :=
  ["A", "BE", "VE", "GHE", "DE", "IE", "ZHE", "ZE", "I", "SHORT I", "KA", "EL", "EM", "EN", "O",
   "PE", "ER", "ES", "TE", "U", "EF", "HA", "TSE", "CHE", "SHA", "SHCHA", "HARD SIGN", "YERU",
   "SOFT SIGN", "E", "YU", "YA"]

def nameFamilies : List NameFamily :=
  [⟨"LATIN CAPITAL LETTER ", 'A', latinLetters⟩, ⟨"LATIN SMALL LETTER ", 'a', latinLetters⟩,
   -- there is no capital final sigma, and its place is empty
   ⟨"GREEK CAPITAL LETTER ", 'Α', greekLetters.take 17⟩,
   ⟨"GREEK CAPITAL LETTER ", 'Σ', greekLetters.drop 18⟩,
   ⟨"GREEK SMALL LETTER ", 'α', greekLetters⟩,
   ⟨"CYRILLIC CAPITAL LETTER ", 'А', cyrillicLetters⟩,
   ⟨"CYRILLIC SMALL LETTER ", 'а', cyrillicLetters⟩,
   ⟨"DIGIT ", '0',
     ["ZERO", "ONE", "TWO", "THREE", "FOUR", "FIVE", "SIX", "SEVEN", "EIGHT", "NINE"]⟩]

/-- Marks with names of their own. -/
def namedMarks : List (String × Char) :=
  [("SPACE", ' '), ("EXCLAMATION MARK", '!'), ("QUOTATION MARK", '"'), ("NUMBER SIGN", '#'),
   ("DOLLAR SIGN", '$'), ("PERCENT SIGN", '%'), ("AMPERSAND", '&'), ("APOSTROPHE", '\''),
   ("LEFT PARENTHESIS", '('), ("RIGHT PARENTHESIS", ')'), ("ASTERISK", '*'), ("PLUS SIGN", '+'),
   ("COMMA", ','), ("HYPHEN-MINUS", '-'), ("FULL STOP", '.'), ("SOLIDUS", '/'), ("COLON", ':'),
   ("SEMICOLON", ';'), ("LESS-THAN SIGN", '<'), ("EQUALS SIGN", '='), ("GREATER-THAN SIGN", '>'),
   ("QUESTION MARK", '?'), ("COMMERCIAL AT", '@'), ("LEFT SQUARE BRACKET", '['),
   ("REVERSE SOLIDUS", '\\'), ("RIGHT SQUARE BRACKET", ']'), ("CIRCUMFLEX ACCENT", '^'),
   ("LOW LINE", '_'), ("GRAVE ACCENT", '\x60'), ("LEFT CURLY BRACKET", '\x7b'),
   ("VERTICAL LINE", '|'), ("RIGHT CURLY BRACKET", '\x7d'), ("TILDE", '~'),
   ("NO-BREAK SPACE", '\xa0'), ("SECTION SIGN", '§'), ("DEGREE SIGN", '°'),
   ("PLUS-MINUS SIGN", '±'), ("SUPERSCRIPT TWO", '²'), ("SUPERSCRIPT THREE", '³'),
   ("MICRO SIGN", 'µ'), ("MIDDLE DOT", '·'), ("MULTIPLICATION SIGN", '×'), ("DIVISION SIGN", '÷'),
   ("EN DASH", '–'), ("EM DASH", '—'), ("BULLET", '•'), ("HORIZONTAL ELLIPSIS", '…'),
   ("EURO SIGN", '€'), ("NUMERO SIGN", '№'), ("LEFTWARDS ARROW", '←'), ("UPWARDS ARROW", '↑'),
   ("RIGHTWARDS ARROW", '→'), ("DOWNWARDS ARROW", '↓'), ("FOR ALL", '∀'), ("THERE EXISTS", '∃'),
   ("ELEMENT OF", '∈'), ("N-ARY PRODUCT", '∏'), ("N-ARY SUMMATION", '∑'), ("MINUS SIGN", '−'),
   ("SQUARE ROOT", '√'), ("INFINITY", '∞'), ("INTEGRAL", '∫'), ("ALMOST EQUAL TO", '≈'),
   ("NOT EQUAL TO", '≠'), ("LESS-THAN OR EQUAL TO", '≤'), ("GREATER-THAN OR EQUAL TO", '≥'),
   ("CHECK MARK", '✓')]

/-- The member of a family that a name names. -/
def NameFamily.find? (family : NameFamily) (name : String) : Option Char :=
  (family.ends.findIdx? (family.beginning ++ · == name)).map fun i =>
    Char.ofNat (family.first.toNat + i)

/-- The character of a name, if it is one of those that have names here. -/
def namedChar? (name : List Char) : Option Char :=
  let name := String.ofList (name.map Char.toUpper)
  (namedMarks.lookup name).or (nameFamilies.findSome? (·.find? name))

end DecimalScript.Text

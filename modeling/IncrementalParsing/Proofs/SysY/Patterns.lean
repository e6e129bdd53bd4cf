import IncrementalParsing.Proofs.SysY.Scanning
import IncrementalParsing.Proofs.Text.Regex

/-! The tokens of SysY as regular expressions. At every place the longest one wins, and of two that are as
long the one of higher priority. -/
namespace IncrementalParsing.SysY
open Text Text.Regex

/-- What the scanner looks for: an expression, the terminal it is of, if it is a token, and a priority
over others that read the same bytes. -/
structure Pattern where
  regex : Regex
  terminal? : Option Terminal
  priority : Nat

def blank (c : Char) : Bool := c ∈ [' ', '\t', '\r', '\n', '\x0B', '\x0C']

def digit (c : Char) : Bool := '0' ≤ c && c ≤ '9'

def letter (c : Char) : Bool := ('A' ≤ c && c ≤ 'Z') || ('a' ≤ c && c ≤ 'z') || c == '_'

def octalDigit (c : Char) : Bool := '0' ≤ c && c ≤ '7'

def hexDigit (c : Char) : Bool := digit c || ('A' ≤ c && c ≤ 'F') || ('a' ≤ c && c ≤ 'f')

def wordCharacter (c : Char) : Bool := letter c || digit c

/-- The inside of a block comment, with no star at its end. -/
def commentBody : Regex :=
  .many (.either (.char (· != '*'))
    (.seq (atLeastOne (.char (· == '*'))) (.char fun c => c != '*' && c != '/')))

def blanks : Pattern := ⟨atLeastOne (.char blank), none, 1⟩

def lineComment : Pattern := ⟨.seq (word ['/', '/']) (.many (.char (· != '\n'))), none, 1⟩

def blockComment : Pattern :=
  ⟨.seq (word ['/', '*']) (.seq commentBody (.seq (atLeastOne (.char (· == '*'))) (.char (· == '/')))),
    none, 1⟩

def openComment : Pattern :=
  ⟨.seq (word ['/', '*']) (.seq commentBody (.many (.char (· == '*')))), some .unterminatedComment, 1⟩

/-- A token with a fixed spelling. -/
def fixed (t : Terminal) : Pattern := ⟨word t.name.toList, some t, 2⟩

def identifier : Pattern := ⟨.seq (.char letter) (.many (.char wordCharacter)), some .identifier, 1⟩

def decimal : Pattern :=
  ⟨.seq (.char fun c => '1' ≤ c && c ≤ '9') (.many (.char digit)), some .decimalLiteral, 2⟩

def octal : Pattern := ⟨.seq (.char (· == '0')) (.many (.char octalDigit)), some .octalLiteral, 2⟩

def hex : Pattern :=
  ⟨.seq (.char (· == '0')) (.seq (.char fun c => c == 'x' || c == 'X') (atLeastOne (.char hexDigit))),
    some .hexLiteral, 2⟩

def malformed : Pattern := ⟨.seq (.char digit) (.many (.char wordCharacter)), some .malformedNumber, 1⟩

/-- All that the scanner looks for. -/
def patterns : List Pattern :=
  [blanks, lineComment, blockComment, openComment] ++ (operators ++ keywords).map fixed
    ++ [identifier, decimal, octal, hex, malformed]

/-- A pattern has the longest match at a place, and no other pattern with the same match comes before it. -/
structure Wins (text : ByteArray) (i : Nat) (pattern : Pattern) (j : Nat) : Prop where
  mem : pattern ∈ patterns
  reads : pattern.regex.Reads text i j
  nonempty : i < j
  longest : ∀ other ∈ patterns, ∀ k, other.regex.Reads text i k → k ≤ j
  first : ∀ other ∈ patterns, other.regex.Reads text i j → other = pattern ∨ other.priority < pattern.priority

/-- The first token behind a place, and where it starts and ends. What is no token is passed over, and a
byte that nothing matches at is a token by itself. -/
inductive Finds (text : ByteArray) : Nat → Option (Terminal × Nat × Nat) → Prop
  | done {i : Nat} (hEnd : text.size ≤ i) : Finds text i none
  | skip {i j : Nat} {pattern : Pattern} {found : Option (Terminal × Nat × Nat)}
      (hWins : Wins text i pattern j) (hTrivia : pattern.terminal? = none)
      (hRest : Finds text j found) : Finds text i found
  | token {i j : Nat} {pattern : Pattern} {t : Terminal} (hWins : Wins text i pattern j)
      (hToken : pattern.terminal? = some t) : Finds text i (some (t, i, j))
  | stray {i : Nat} (hInside : i < text.size)
      (hNone : ∀ pattern ∈ patterns, ∀ j, ¬ pattern.regex.Reads text i j) :
      Finds text i (some (.unexpectedCharacter, i, i + 1))

/-! Expressions for characters of ASCII, by the bytes they read. -/

/-- The texts of an expression are these bytes. -/
def Written (regex : Regex) (bytes : List UInt8 → Prop) : Prop :=
  ∀ text i j, regex.Reads text i j ↔ ∃ bs, bytes bs ∧ startsWith text i bs = true ∧ j = i + bs.length

/-- A class of characters holds of these bytes of ASCII. -/
def Byte (holds : Char → Bool) (p : UInt8 → Bool) : Prop :=
  (∀ b, p b = true → b < 0x80) ∧ ∀ c, holds c = true ↔ ∃ b, p b = true ∧ c.toNat = b.toNat

/-- A text starts with one list of bytes behind another if it starts with each at its place. -/
theorem startsWith_append {text : ByteArray} {i : Nat} {front back : List UInt8} :
    startsWith text i (front ++ back) = true ↔
      startsWith text i front = true ∧ startsWith text (i + front.length) back = true := by
  induction front generalizing i with
  | nil => simp [startsWith]
  | cons b front ih =>
      simp only [List.cons_append, startsWith, Bool.and_eq_true, ih, List.length_cons, and_assoc]
      rw [Nat.add_right_comm, Nat.add_assoc]

/-- For a class of single bytes, reading a character is finding a byte. -/
theorem reads_char_iff_byte {holds : Char → Bool} {p : UInt8 → Bool} (hByte : Byte holds p)
    {text : ByteArray} {i j : Nat} :
    (Regex.char holds).Reads text i j ↔ ∃ b, byteAt? text i = some b ∧ p b = true ∧ i + 1 = j := by
  rw [reads_char_iff]
  constructor
  · rintro ⟨c, hDecodes, hHolds, hEnd⟩
    obtain ⟨b, hHere, hCase⟩ := byteAt?_of_utf8DecodeChar? hDecodes
    obtain ⟨b', hBits, hSame⟩ := (hByte.2 c).mp hHolds
    have hAscii : b'.toNat < 128 := UInt8.lt_iff_toNat_lt.mp (hByte.1 b' hBits)
    rcases hCase with ⟨-, hValue, hSize⟩ | ⟨-, hHigh⟩
    · obtain rfl : b = b' := UInt8.toNat_inj.mp (hValue.symm.trans hSame)
      exact ⟨b, hHere, hBits, hSize ▸ hEnd⟩
    · omega
  · rintro ⟨b, hHere, hBits, hEnd⟩
    have hDecodes := utf8DecodeChar?_of_ascii hHere (hByte.1 b hBits)
    obtain ⟨b', hHere', hCase⟩ := byteAt?_of_utf8DecodeChar? hDecodes
    obtain rfl := Option.some.inj (hHere.symm.trans hHere')
    have hAscii : b.toNat < 128 := UInt8.lt_iff_toNat_lt.mp (hByte.1 b hBits)
    rcases hCase with ⟨-, hValue, hSize⟩ | ⟨hHigh, -⟩
    · exact ⟨_, hDecodes, (hByte.2 _).mpr ⟨b, hBits, hValue⟩, hSize.symm ▸ hEnd⟩
    · omega

/-- One character of such a class is one byte of it. -/
theorem Byte.written {holds : Char → Bool} {p : UInt8 → Bool} (hByte : Byte holds p) :
    Written (.char holds) fun bs => ∃ b, bs = [b] ∧ p b = true := by
  intro text i j
  rw [reads_char_iff_byte hByte]
  constructor
  · rintro ⟨b, hHere, hBits, rfl⟩
    exact ⟨[b], ⟨b, rfl, hBits⟩, by simp [startsWith, hHere], rfl⟩
  · rintro ⟨-, ⟨b, rfl, hBits⟩, hStarts, rfl⟩
    exact ⟨b, by simpa [startsWith] using hStarts, hBits, rfl⟩

/-- Any number of them is a list of such bytes. -/
theorem Byte.many {holds : Char → Bool} {p : UInt8 → Bool} (hByte : Byte holds p) :
    Written (.many (.char holds)) fun bs => bs.all p = true := by
  intro text i j
  constructor
  · intro hReads
    induction hReads using Reads.many_induction with
    | done i => exact ⟨[], rfl, rfl, rfl⟩
    | more i j k hFirst _ ih =>
        obtain ⟨bs, hAll, hStarts, rfl⟩ := ih
        obtain ⟨b, hHere, hBits, rfl⟩ := (reads_char_iff_byte hByte).mp hFirst
        refine ⟨b :: bs, by simp [hBits, hAll], by simp [startsWith, hHere, hStarts], ?_⟩
        rw [List.length_cons]
        omega
  · rintro ⟨bs, hAll, hStarts, rfl⟩
    induction bs generalizing i with
    | nil => exact .done
    | cons b bs ih =>
        rw [List.all_cons, Bool.and_eq_true] at hAll
        simp only [startsWith, Bool.and_eq_true, beq_iff_eq] at hStarts
        refine .more ((reads_char_iff_byte hByte).mpr ⟨b, hStarts.1, hAll.1, rfl⟩) ?_
        have hRest := ih _ hAll.2 hStarts.2
        rwa [Nat.add_assoc, Nat.add_comm 1] at hRest

/-- One expression behind another is written as the one and then the other. -/
theorem Written.seq {first rest : Regex} {front back : List UInt8 → Prop} (hFirst : Written first front)
    (hRest : Written rest back) :
    Written (.seq first rest) fun bs => ∃ as cs, front as ∧ back cs ∧ bs = as ++ cs := by
  intro text i j
  rw [reads_seq_iff]
  constructor
  · rintro ⟨k, hReads, hMore⟩
    obtain ⟨as, hFront, hStarts, rfl⟩ := (hFirst text i k).mp hReads
    obtain ⟨cs, hBack, hGoes, rfl⟩ := (hRest text _ j).mp hMore
    refine ⟨as ++ cs, ⟨as, cs, hFront, hBack, rfl⟩, startsWith_append.mpr ⟨hStarts, hGoes⟩, ?_⟩
    rw [List.length_append, Nat.add_assoc]
  · rintro ⟨-, ⟨as, cs, hFront, hBack, rfl⟩, hStarts, rfl⟩
    obtain ⟨hHere, hGoes⟩ := startsWith_append.mp hStarts
    refine ⟨i + as.length, (hFirst text i _).mpr ⟨as, hFront, hHere, rfl⟩,
      (hRest text _ _).mpr ⟨cs, hBack, hGoes, ?_⟩⟩
    rw [List.length_append, Nat.add_assoc]

/-- What an expression is written as can be said in other words. -/
theorem Written.of_iff {regex : Regex} {bytes others : List UInt8 → Prop} (h : Written regex bytes)
    (hSame : ∀ bs, bytes bs ↔ others bs) : Written regex others := by
  rwa [← funext fun bs => propext (hSame bs)]

/-- A class of characters is given by their values. -/
theorem Byte.of_range {holds : Char → Bool} {p : UInt8 → Bool} (range : Nat → Prop)
    (hHolds : ∀ c, holds c = true ↔ range c.toNat) (hBits : ∀ b, p b = true ↔ range b.toNat)
    (hAscii : ∀ n, range n → n < 128) : Byte holds p := by
  refine ⟨fun b hBit => UInt8.lt_iff_toNat_lt.mpr (hAscii _ ((hBits b).mp hBit)), fun c => ?_⟩
  rw [hHolds]
  constructor
  · intro hRange
    have hLow := hAscii _ hRange
    have hValue : (UInt8.ofNat c.toNat).toNat = c.toNat :=
      UInt8.toNat_ofNat_of_lt' (Nat.lt_trans hLow (by decide))
    exact ⟨UInt8.ofNat c.toNat, (hBits _).mpr (hValue.symm ▸ hRange), hValue.symm⟩
  · rintro ⟨b, hBit, hValue⟩
    exact hValue ▸ (hBits b).mp hBit

/-- A character below 128 is the byte of its number. -/
theorem byte_eq {c : Char} (hAscii : c.toNat < 128) : Byte (· == c) (· == UInt8.ofNat c.toNat) := by
  refine Byte.of_range ((· = c.toNat)) (fun d => ?_) (fun b => ?_) (fun n hEq => hEq ▸ hAscii)
  · rw [beq_iff_eq, Char.toNat_inj]
  · rw [beq_iff_eq, ← UInt8.toNat_inj, UInt8.toNat_ofNat_of_lt' (Nat.lt_trans hAscii (by decide))]

theorem byte_blank : Byte blank isBlank := by
  refine Byte.of_range (fun n => n = 32 ∨ 9 ≤ n ∧ n ≤ 13) (fun c => ?_) (fun b => ?_) (by omega)
  · simp only [blank, List.mem_cons, List.not_mem_nil, or_false, decide_eq_true_eq, ← Char.toNat_inj,
      Char.reduceToNat]
    omega
  · simp [isBlank, ← UInt8.toNat_inj, UInt8.le_iff_toNat_le]

theorem byte_letter : Byte letter isLetter := by
  refine Byte.of_range (fun n => 65 ≤ n ∧ n ≤ 90 ∨ 97 ≤ n ∧ n ≤ 122 ∨ n = 95) (fun c => ?_)
    (fun b => ?_) (by omega)
  · simp [letter, Char.le_def, UInt32.le_iff_toNat_le, ← Char.toNat_inj, or_assoc]
  · simp [isLetter, ← UInt8.toNat_inj, UInt8.le_iff_toNat_le, or_assoc]

theorem byte_digit : Byte digit isDigit := by
  refine Byte.of_range (fun n => 48 ≤ n ∧ n ≤ 57) (fun c => ?_) (fun b => ?_) (by omega)
  · simp [digit, Char.le_def, UInt32.le_iff_toNat_le]
  · simp [isDigit, UInt8.le_iff_toNat_le]

theorem byte_octalDigit : Byte octalDigit isOctalDigit := by
  refine Byte.of_range (fun n => 48 ≤ n ∧ n ≤ 55) (fun c => ?_) (fun b => ?_) (by omega)
  · simp [octalDigit, Char.le_def, UInt32.le_iff_toNat_le]
  · simp [isOctalDigit, UInt8.le_iff_toNat_le]

/-- Two classes of single bytes are one together. -/
theorem Byte.or {holds others : Char → Bool} {p q : UInt8 → Bool} (hLeft : Byte holds p)
    (hRight : Byte others q) : Byte (fun c => holds c || others c) fun b => p b || q b := by
  simp only [Byte, Bool.or_eq_true]
  refine ⟨fun b hBit => hBit.elim (hLeft.1 b) (hRight.1 b), fun c => ?_⟩
  rw [hLeft.2, hRight.2, ← exists_or]
  exact exists_congr fun b => or_and_right.symm

theorem byte_hexDigit : Byte hexDigit isHexDigit := by
  refine Byte.of_range (fun n => 48 ≤ n ∧ n ≤ 57 ∨ 65 ≤ n ∧ n ≤ 70 ∨ 97 ≤ n ∧ n ≤ 102)
    (fun c => ?_) (fun b => ?_) (by omega)
  · simp [hexDigit, digit, Char.le_def, UInt32.le_iff_toNat_le, or_assoc]
  · simp [isHexDigit, isDigit, UInt8.le_iff_toNat_le, or_assoc]

theorem byte_wordCharacter : Byte wordCharacter isWordByte := byte_letter.or byte_digit

/-- A word is written as its characters are. -/
theorem written_word {cs : List Char} (hAscii : ∀ c ∈ cs, c.toNat < 128) :
    Written (word cs) (· = cs.map fun c => UInt8.ofNat c.toNat) := by
  induction cs with
  | nil =>
      intro text i j
      rw [word, reads_empty_iff]
      constructor
      · rintro rfl
        exact ⟨[], rfl, rfl, rfl⟩
      · rintro ⟨-, rfl, -, rfl⟩
        rfl
  | cons c cs ih =>
      obtain ⟨hHere, hRest⟩ := List.forall_mem_cons.mp hAscii
      refine ((byte_eq hHere).written.seq (ih hRest)).of_iff fun bs => ?_
      constructor
      · rintro ⟨-, -, ⟨b, rfl, hBit⟩, rfl, rfl⟩
        rw [eq_of_beq hBit]
        rfl
      · rintro rfl
        exact ⟨[_], _, ⟨_, rfl, beq_self_eq_true _⟩, rfl, rfl⟩

end IncrementalParsing.SysY

import IncrementalParsing.Proofs.SysY.Patterns

/-! How far each expression of the scanner reads, by the functions that find where a token ends. The first
byte decides which expressions there are to choose from. -/
namespace IncrementalParsing.SysY
open Text Text.Regex

/-! What the patterns read, by bytes. -/

/-- Blanks are one blank or more. -/
theorem written_blanks : Written blanks.regex fun bs => bs ≠ [] ∧ bs.all isBlank = true := by
  refine (byte_blank.written.seq byte_blank.many).of_iff fun bs => ?_
  constructor
  · rintro ⟨-, cs, ⟨b, rfl, hBlank⟩, hAll, rfl⟩
    exact ⟨by simp, by simp [hBlank, hAll]⟩
  · rintro ⟨hSome, hAll⟩
    obtain ⟨b, cs, rfl⟩ := List.exists_cons_of_ne_nil hSome
    rw [List.all_cons, Bool.and_eq_true] at hAll
    exact ⟨[b], cs, ⟨b, rfl, hAll.1⟩, hAll.2, rfl⟩

/-- A character of one class and any number of another one, where all of them are single bytes. -/
theorem written_head {holds others : Char → Bool} {p q : UInt8 → Bool} (hFirst : Byte holds p)
    (hRest : Byte others q) : Written (.seq (.char holds) (.many (.char others)))
      fun bs => ∃ b cs, bs = b :: cs ∧ p b = true ∧ cs.all q = true := by
  refine (hFirst.written.seq hRest.many).of_iff fun bs => ?_
  constructor
  · rintro ⟨-, cs, ⟨b, rfl, hBit⟩, hAll, rfl⟩
    exact ⟨b, cs, rfl, hBit, hAll⟩
  · rintro ⟨b, cs, rfl, hBit, hAll⟩
    exact ⟨[b], cs, ⟨b, rfl, hBit⟩, hAll, rfl⟩

theorem byte_nonzero : Byte (fun c => '1' ≤ c && c ≤ '9') fun b => isDigit b && b != 0x30 := by
  refine Byte.of_range (fun n => 49 ≤ n ∧ n ≤ 57) (fun c => ?_) (fun b => ?_) (by omega)
  · simp [Char.le_def, UInt32.le_iff_toNat_le]
  · simp [isDigit, UInt8.le_iff_toNat_le, ← UInt8.toNat_inj]
    omega

/-- The bytes of a hexadecimal number behind its zero. -/
def IsHexTail : List UInt8 → Prop
  | [] => False
  | x :: digits => (x = 0x78 ∨ x = 0x58) ∧ digits ≠ [] ∧ digits.all isHexDigit = true

/-- A hexadecimal literal is a zero, an `x` and hexadecimal digits. -/
theorem written_hex : Written hex.regex fun bs => ∃ cs, bs = 0x30 :: cs ∧ IsHexTail cs := by
  have hDigits : Written (atLeastOne (.char hexDigit)) fun bs => bs ≠ [] ∧ bs.all isHexDigit = true := by
    refine (written_head byte_hexDigit byte_hexDigit).of_iff fun bs => ?_
    cases bs <;> simp
  have hX : Byte (fun c => c == 'x' || c == 'X') fun b => b == 0x78 || b == 0x58 :=
    (byte_eq (c := 'x') (by decide)).or (byte_eq (c := 'X') (by decide))
  refine ((byte_eq (c := '0') (by decide)).written.seq (hX.written.seq hDigits)).of_iff fun bs => ?_
  constructor
  · rintro ⟨-, -, ⟨z, rfl, hZero⟩, ⟨-, ds, ⟨x, rfl, hBit⟩, ⟨hSome, hAll⟩, rfl⟩, rfl⟩
    refine ⟨x :: ds, ?_, ?_, hSome, hAll⟩
    · rw [eq_of_beq hZero]
      rfl
    · simpa using hBit
  · rintro ⟨cs, rfl, hTail⟩
    cases cs with
    | nil => exact hTail.elim
    | cons x ds =>
        obtain ⟨hBit, hSome, hAll⟩ := hTail
        exact ⟨[0x30], x :: ds, ⟨0x30, rfl, rfl⟩, ⟨[x], ds, ⟨x, rfl, by simpa using hBit⟩,
          ⟨hSome, hAll⟩, rfl⟩, rfl⟩

/-- An operator or a keyword is written as it is spelled. -/
theorem written_fixed {t : Terminal} (hMem : t ∈ operators ++ keywords) :
    Written (fixed t).regex (· = spelling t) := by
  have hNames : ∀ t ∈ operators ++ keywords, t.name.toList.all (fun c => c.toNat < 128) = true
      ∧ t.name.toList.map (fun c => UInt8.ofNat c.toNat) = spelling t := by
    decide +kernel
  obtain ⟨hAscii, hBytes⟩ := hNames t hMem
  exact hBytes ▸ written_word fun c hChar => by simpa using List.all_eq_true.mp hAscii c hChar

theorem written_identifier : Written identifier.regex
    fun bs => ∃ b cs, bs = b :: cs ∧ isLetter b = true ∧ cs.all isWordByte = true :=
  written_head byte_letter byte_wordCharacter

theorem written_decimal : Written decimal.regex
    fun bs => ∃ b cs, bs = b :: cs ∧ (isDigit b && b != 0x30) = true ∧ cs.all isDigit = true :=
  written_head byte_nonzero byte_digit

theorem written_octal : Written octal.regex
    fun bs => ∃ b cs, bs = b :: cs ∧ (b == 0x30) = true ∧ cs.all isOctalDigit = true :=
  written_head (byte_eq (c := '0') (by decide)) byte_octalDigit

/-- A malformed number is a digit with any word behind it. -/
theorem written_malformed : Written malformed.regex
    fun bs => ∃ b cs, bs = b :: cs ∧ isDigit b = true ∧ cs.all isWordByte = true :=
  written_head byte_digit byte_wordCharacter

section
variable {text : ByteArray} {i j k : Nat}

/-- Where the scanner finds a character of some width, decoding finds one of that width. -/
theorem exists_decodes {width : Nat} (hWidth : scalarWidth? text i = some width) :
    ∃ c, text.utf8DecodeChar? i = some c ∧ c.utf8Size = width :=
  Option.map_eq_some_iff.mp ((scalarWidth?_eq text i).symm.trans hWidth)

/-- The byte that a character of ASCII is at a place. -/
theorem byteAt?_eq_iff {c d : Char} (hDecodes : text.utf8DecodeChar? i = some c)
    (hAscii : d.toNat < 128) : byteAt? text i = some (UInt8.ofNat d.toNat) ↔ c = d := by
  have hValue : (UInt8.ofNat d.toNat).toNat = d.toNat :=
    UInt8.toNat_ofNat_of_lt' (Nat.lt_trans hAscii (by decide))
  obtain ⟨b, hByte, hCase⟩ := byteAt?_of_utf8DecodeChar? hDecodes
  rw [hByte, Option.some.injEq, ← UInt8.toNat_inj, hValue, ← Char.toNat_inj]
  omega

/-! A line comment. -/

/-- The text up to the end of a line comment can be read as one. -/
theorem reads_lineCommentEnd (text : ByteArray) (i : Nat) :
    (Regex.many (.char (· != '\n'))).Reads text i (lineCommentEnd text i) := by
  fun_induction lineCommentEnd text i with
  | case1 | case3 => exact .done
  | case2 i hFeed width hWidth ih =>
      obtain ⟨c, hDecodes, rfl⟩ := exists_decodes hWidth
      refine .more (.char hDecodes (bne_iff_ne.mpr fun hEq => hFeed ?_)) ih
      exact (byteAt?_eq_iff hDecodes (d := '\n') (by decide)).mpr hEq

/-- No line comment goes on behind that. -/
theorem le_lineCommentEnd_of_reads (hReads : (Regex.many (.char (· != '\n'))).Reads text i k) :
    k ≤ lineCommentEnd text i := by
  induction hReads using Reads.many_induction with
  | done i => exact le_lineCommentEnd text i
  | more i j k hFirst _ ih =>
      obtain ⟨c, hDecodes, hFeed, rfl⟩ := reads_char_iff.mp hFirst
      have hOther : byteAt? text i ≠ some 0x0A := fun hByte =>
        bne_iff_ne.mp hFeed ((byteAt?_eq_iff hDecodes (d := '\n') (by decide)).mp hByte)
      rw [lineCommentEnd, if_neg hOther]
      split
      · rename_i width hWidth
        obtain rfl := Option.some.inj ((scalarWidth?_of_decodes hDecodes).symm.trans hWidth)
        exact ih
      · rename_i hNone
        simp [scalarWidth?_of_decodes hDecodes] at hNone

/-! A block comment. -/

/-- A star with a slash behind it, that closes a comment. -/
def Closes (text : ByteArray) (i : Nat) : Prop :=
  byteAt? text i = some 0x2A ∧ byteAt? text (i + 1) = some 0x2F

/-- A comment goes on from one place to another. -/
inductive Inside (text : ByteArray) : Nat → Nat → Prop
  | here {i : Nat} : Inside text i i
  | next {i j : Nat} {c : Char} (hDecodes : text.utf8DecodeChar? i = some c) (hOpen : ¬ Closes text i)
      (hRest : Inside text (i + c.utf8Size) j) : Inside text i j

theorem Inside.trans (hFirst : Inside text i j) (hRest : Inside text j k) : Inside text i k := by
  induction hFirst with
  | here => exact hRest
  | next hDecodes hOpen _ ih => exact .next hDecodes hOpen (ih hRest)

/-- A comment that closes here ends here. -/
theorem blockCommentEnd_of_closes (hCloses : Closes text i) :
    blockCommentEnd text i = (true, i + 2) := by
  rw [blockCommentEnd]
  exact if_pos hCloses

/-- Where it does not close, the comment goes on behind the next character. -/
theorem blockCommentEnd_next {c : Char} (hDecodes : text.utf8DecodeChar? i = some c)
    (hOpen : ¬ Closes text i) : blockCommentEnd text i = blockCommentEnd text (i + c.utf8Size) := by
  rw [blockCommentEnd]
  refine (if_neg hOpen).trans ?_
  split
  · rename_i width hWidth
    obtain rfl := Option.some.inj ((scalarWidth?_of_decodes hDecodes).symm.trans hWidth)
    rfl
  · rename_i hNone
    simp [scalarWidth?_of_decodes hDecodes] at hNone

/-- From anywhere within a comment the end is the same. -/
theorem Inside.blockCommentEnd_eq (hInside : Inside text i j) :
    blockCommentEnd text i = blockCommentEnd text j := by
  induction hInside with
  | here => rfl
  | next hDecodes hOpen _ ih => exact (blockCommentEnd_next hDecodes hOpen).trans ih

/-- A closed comment ends where its first closer is. -/
theorem inside_of_closed (hClosed : (blockCommentEnd text i).1 = true) :
    ∃ j, Inside text i j ∧ Closes text j ∧ (blockCommentEnd text i).2 = j + 2 := by
  fun_induction blockCommentEnd text i with
  | case1 i hHere => exact ⟨i, .here, hHere, rfl⟩
  | case2 i hElse width hWidth ih =>
      obtain ⟨c, hDecodes, rfl⟩ := exists_decodes hWidth
      obtain ⟨j, hInside, hCloses, hEnd⟩ := ih hClosed
      exact ⟨j, .next hDecodes hElse hInside, hCloses, hEnd⟩
  | case3 i hElse hNone => simp at hClosed

/-- An open comment goes on up to where no character can be read. -/
theorem inside_of_open (hOpen : (blockCommentEnd text i).1 = false) :
    Inside text i (blockCommentEnd text i).2 := by
  fun_induction blockCommentEnd text i with
  | case1 i hHere => simp at hOpen
  | case2 i hElse width hWidth ih =>
      obtain ⟨c, hDecodes, rfl⟩ := exists_decodes hWidth
      exact .next hDecodes hElse (ih hOpen)
  | case3 i hElse hNone => exact .here

theorem byte_star : Byte (· == '*') (· == 0x2A) := byte_eq (by decide)

theorem byte_slash : Byte (· == '/') (· == 0x2F) := byte_eq (by decide)

/-- A star is one byte of the text. -/
theorem star_of_reads (hReads : (Regex.char (· == '*')).Reads text i j) :
    byteAt? text i = some 0x2A ∧ j = i + 1 := by
  obtain ⟨b, hByte, hBit, rfl⟩ := (reads_char_iff_byte byte_star).mp hReads
  exact ⟨eq_of_beq hBit ▸ hByte, rfl⟩

theorem reads_star (hByte : byteAt? text i = some 0x2A) :
    (Regex.char (· == '*')).Reads text i (i + 1) :=
  (reads_char_iff_byte byte_star).mpr ⟨_, hByte, rfl, rfl⟩

/-- A star that does not close a comment is inside it. -/
theorem inside_of_star (hByte : byteAt? text i = some 0x2A) (hOther : byteAt? text (i + 1) ≠ some 0x2F) :
    Inside text i (i + 1) := by
  have hDecodes : text.utf8DecodeChar? i = some '*' := utf8DecodeChar?_of_ascii hByte (by decide)
  exact .next hDecodes (fun hCloses => hOther hCloses.2) .here

/-- A run of stars is inside a comment up to its last star. -/
theorem inside_of_stars (hReads : (Regex.many (.char (· == '*'))).Reads text i j) :
    i = j ∨ ∃ k, j = k + 1 ∧ Inside text i k ∧ byteAt? text k = some 0x2A := by
  induction hReads using Reads.many_induction with
  | done i => exact .inl rfl
  | more i j k hFirst hRest ih =>
      obtain ⟨hByte, rfl⟩ := star_of_reads hFirst
      rcases reads_many_iff.mp hRest with rfl | ⟨m, hNext, -⟩
      · exact .inr ⟨i, rfl, .here, hByte⟩
      have hStar := inside_of_star hByte fun hSlash => by simp [(star_of_reads hNext).1] at hSlash
      rcases ih with rfl | ⟨k, rfl, hInside, hLast⟩
      · exact .inr ⟨i, rfl, .here, hByte⟩
      · exact .inr ⟨k, rfl, hStar.trans hInside, hLast⟩

/-- Stars with another character behind them do not close a comment. -/
theorem inside_of_starred {c : Char} (hStars : (Regex.many (.char (· == '*'))).Reads text i j)
    (hDecodes : text.utf8DecodeChar? j = some c) (hStar : c ≠ '*') (hSlash : c ≠ '/') :
    Inside text i (j + c.utf8Size) := by
  have hLast : Inside text j (j + c.utf8Size) :=
    .next hDecodes (fun hCloses =>
      hStar ((byteAt?_eq_iff hDecodes (d := '*') (by decide)).mp hCloses.1)) .here
  rcases inside_of_stars hStars with rfl | ⟨k, rfl, hInside, hByte⟩
  · exact hLast
  · refine hInside.trans (.trans (inside_of_star hByte fun hSame => hSlash ?_) hLast)
    exact (byteAt?_eq_iff hDecodes (d := '/') (by decide)).mp hSame

theorem reads_atLeastOne (hReads : (atLeastOne (.char (· == '*'))).Reads text i j) :
    (Regex.many (.char (· == '*'))).Reads text i j ∧ i < j := by
  obtain ⟨k, hFirst, hRest⟩ := reads_seq_iff.mp hReads
  obtain ⟨-, rfl⟩ := star_of_reads hFirst
  exact ⟨.more hFirst hRest, hRest.le⟩

/-- What is read as the body of a comment has no closer in it. -/
theorem inside_of_body (hReads : commentBody.Reads text i j) : Inside text i j := by
  induction hReads using Reads.many_induction with
  | done i => exact .here
  | more i j k hFirst _ ih =>
      refine .trans ?_ ih
      rcases reads_either_iff.mp hFirst with hOther | hStars
      · obtain ⟨c, hDecodes, hNot, rfl⟩ := reads_char_iff.mp hOther
        refine .next hDecodes (fun hCloses => bne_iff_ne.mp hNot ?_) .here
        exact (byteAt?_eq_iff hDecodes (d := '*') (by decide)).mp hCloses.1
      · obtain ⟨m, hRun, hLast⟩ := reads_seq_iff.mp hStars
        obtain ⟨c, hDecodes, hNot, rfl⟩ := reads_char_iff.mp hLast
        rw [Bool.and_eq_true, bne_iff_ne, bne_iff_ne] at hNot
        exact inside_of_starred (reads_atLeastOne hRun).1 hDecodes hNot.1 hNot.2

/-- What is inside a comment is read as its body, with the stars at its end. -/
theorem reads_of_inside (hInside : Inside text i j) :
    (Regex.seq commentBody (.many (.char (· == '*')))).Reads text i j := by
  induction hInside with
  | here => exact .seq .done .done
  | @next i j c hDecodes hOpen hRest ih =>
      obtain ⟨m, hBody, hStars⟩ := reads_seq_iff.mp ih
      by_cases hStar : c = '*'
      · subst hStar
        have hByte := (byteAt?_eq_iff hDecodes (d := '*') (by decide)).mpr rfl
        rcases reads_many_iff.mp hBody with rfl | ⟨n, hItem, hMore⟩
        · exact .seq .done (.more (reads_star hByte) hStars)
        refine .seq (.more (.right ?_) hMore) hStars
        rcases reads_either_iff.mp hItem with hOther | hRun
        · obtain ⟨d, hNext, hNot, rfl⟩ := reads_char_iff.mp hOther
          refine .seq (.seq (reads_star hByte) .done) (.char hNext ?_)
          rw [Bool.and_eq_true, bne_iff_ne, bne_iff_ne]
          refine ⟨bne_iff_ne.mp hNot, fun hSlash => hOpen ⟨hByte, ?_⟩⟩
          exact (byteAt?_eq_iff hNext (d := '/') (by decide)).mpr hSlash
        · obtain ⟨l, hStarred, hLast⟩ := reads_seq_iff.mp hRun
          exact .seq (.seq (reads_star hByte) (reads_atLeastOne hStarred).1) hLast
      · exact .seq (.more (.left (.char hDecodes (bne_iff_ne.mpr hStar))) hBody) hStars

/-- An open comment is read no further than it goes on, or than to the star that closes it. -/
theorem le_of_reads_open (hReads : (Regex.seq commentBody (.many (.char (· == '*')))).Reads text i j) :
    j + (if (blockCommentEnd text i).1 = true then 1 else 0) ≤ (blockCommentEnd text i).2 := by
  obtain ⟨m, hBody, hStars⟩ := reads_seq_iff.mp hReads
  rw [(inside_of_body hBody).blockCommentEnd_eq]
  rcases inside_of_stars hStars with rfl | ⟨k, rfl, hInside, hByte⟩
  · split
    · rename_i hClosed
      have hRoom := closed_blockCommentEnd hClosed
      omega
    · exact le_blockCommentEnd text m
  · rw [hInside.blockCommentEnd_eq]
    split
    · rename_i hClosed
      exact closed_blockCommentEnd hClosed
    · rename_i hOpen
      have hDecodes : text.utf8DecodeChar? k = some '*' := utf8DecodeChar?_of_ascii hByte (by decide)
      rw [blockCommentEnd_next hDecodes fun hCloses => hOpen (by rw [blockCommentEnd_of_closes hCloses])]
      exact le_blockCommentEnd text (k + 1)

/-- A closed comment is read up to where it is closed first. -/
theorem reads_closed_iff : (Regex.seq commentBody
      (.seq (atLeastOne (.char (· == '*'))) (.char (· == '/')))).Reads text i j
      ↔ blockCommentEnd text i = (true, j) := by
  constructor
  · intro hReads
    obtain ⟨m, hBody, hTail⟩ := reads_seq_iff.mp hReads
    obtain ⟨n, hStars, hSlash⟩ := reads_seq_iff.mp hTail
    obtain ⟨b, hByte, hBit, rfl⟩ := (reads_char_iff_byte byte_slash).mp hSlash
    obtain ⟨hRun, hLess⟩ := reads_atLeastOne hStars
    obtain ⟨k, rfl, hInside, hStar⟩ := (inside_of_stars hRun).resolve_left (Nat.ne_of_lt hLess)
    rw [((inside_of_body hBody).trans hInside).blockCommentEnd_eq]
    exact blockCommentEnd_of_closes ⟨hStar, eq_of_beq hBit ▸ hByte⟩
  · intro hEnd
    obtain ⟨k, hInside, hCloses, hPlace⟩ := inside_of_closed (congrArg Prod.fst hEnd)
    obtain ⟨m, hBody, hStars⟩ := reads_seq_iff.mp (reads_of_inside hInside)
    have hLast := reads_star hCloses.1
    have hRun : (atLeastOne (.char (· == '*'))).Reads text m (k + 1) := by
      rcases reads_many_iff.mp (hStars.snoc hLast) with rfl | ⟨n, hFirst, hMore⟩
      · exact absurd hStars.le (by omega)
      · exact .seq hFirst hMore
    rw [hEnd] at hPlace
    obtain rfl : j = k + 2 := hPlace
    exact .seq hBody (.seq hRun ((reads_char_iff_byte byte_slash).mpr ⟨_, hCloses.2, rfl, rfl⟩))

/-! Bytes in a row. -/

/-- One spelling of a length is found at a place. -/
theorem startsWith_inj {as bs : List UInt8} (hFirst : startsWith text i as = true)
    (hOther : startsWith text i bs = true) (hLength : as.length = bs.length) : as = bs := by
  induction as generalizing i bs with
  | nil => exact (List.eq_nil_of_length_eq_zero hLength.symm).symm
  | cons a as ih =>
      cases bs with
      | nil => simp at hLength
      | cons b bs =>
          simp only [startsWith, Bool.and_eq_true, beq_iff_eq] at hFirst hOther
          rw [Option.some.inj (hFirst.1.symm.trans hOther.1),
            ih hFirst.2 hOther.2 (Nat.succ.inj hLength)]

/-- Bytes of a class are within the run of that class. -/
theorem le_runEnd_of_startsWith {p : UInt8 → Bool} {bs : List UInt8}
    (hStarts : startsWith text i bs = true) (hAll : bs.all p = true) :
    i + bs.length ≤ runEnd p text i := by
  induction bs generalizing i with
  | nil => exact le_runEnd p text i
  | cons b bs ih =>
      simp only [startsWith, Bool.and_eq_true, beq_iff_eq] at hStarts
      rw [List.all_cons, Bool.and_eq_true] at hAll
      rw [runEnd_eq, hStarts.1]
      simp only [hAll.1, if_true, List.length_cons]
      have hRest := ih hStarts.2 hAll.2
      omega

/-- A run is what the text starts with, up to its end. -/
theorem exists_run (p : UInt8 → Bool) (text : ByteArray) (i : Nat) :
    ∃ bs, startsWith text i bs = true ∧ bs.all p = true ∧ runEnd p text i = i + bs.length := by
  fun_induction runEnd p text i with
  | case1 i hLess hHolds ih =>
      obtain ⟨bs, hStarts, hAll, hEnd⟩ := ih
      refine ⟨text[i] :: bs, ?_, by simp [hHolds, hAll], ?_⟩
      · simp [startsWith, byteAt?_of_lt hLess, hStarts]
      · rw [hEnd, List.length_cons]
        omega
  | case2 | case3 => exact ⟨[], rfl, rfl, rfl⟩

theorem byteAt?_of_startsWith {bs : List UInt8} (hStarts : startsWith text i bs = true)
    (hBound : k < bs.length) : byteAt? text (i + k) = bs[k]? := by
  induction bs generalizing i k with
  | nil => simp at hBound
  | cons b bs ih =>
      simp only [startsWith, Bool.and_eq_true, beq_iff_eq] at hStarts
      cases k with
      | zero => exact hStarts.1
      | succ k =>
          have hRest := ih hStarts.2 (Nat.lt_of_succ_lt_succ hBound)
          rwa [Nat.add_assoc, Nat.add_comm 1] at hRest

/-- What the text starts with is the slice of that length. -/
theorem slice_of_startsWith {bs : List UInt8} (hStarts : startsWith text i bs = true) :
    slice text i (i + bs.length) = bs := by
  have hRoom : bs.length ≤ text.size - i := by
    cases bs with
    | nil => exact Nat.zero_le _
    | cons b bs =>
        have hInside := startsWith_le (List.cons_ne_nil b bs) hStarts
        omega
  refine List.ext_getElem? fun k => ?_
  rw [slice, toList_eq, Array.getElem?_toList, ← byteAt?_eq, byteAt?_extract]
  by_cases hBound : k < bs.length
  · rw [if_pos (by omega), byteAt?_of_startsWith hStarts hBound]
  · rw [if_neg (by omega), List.getElem?_eq_none (Nat.le_of_not_lt hBound)]

/-! What a pattern has read, by the functions of the scanner. -/

/-- A pattern has read the bytes up to a place. -/
inductive Reading (text : ByteArray) (i : Nat) : Pattern → Nat → Prop
  | blanks {bs : List UInt8} (hSome : bs ≠ []) (hAll : bs.all isBlank = true)
      (hStarts : startsWith text i bs = true) : Reading text i blanks (i + bs.length)
  | lineComment {k : Nat} (hStarts : startsWith text i [0x2F, 0x2F] = true)
      (hEnd : k ≤ lineCommentEnd text (i + 2)) : Reading text i lineComment k
  | blockComment {k : Nat} (hStarts : startsWith text i [0x2F, 0x2A] = true)
      (hEnd : blockCommentEnd text (i + 2) = (true, k)) : Reading text i blockComment k
  | openComment {k : Nat} (hStarts : startsWith text i [0x2F, 0x2A] = true)
      (hEnd : k + (if (blockCommentEnd text (i + 2)).1 = true then 1 else 0)
        ≤ (blockCommentEnd text (i + 2)).2) : Reading text i openComment k
  | operator {t : Terminal} (hMem : t ∈ operators) (hStarts : startsWith text i (spelling t) = true) :
      Reading text i (fixed t) (i + (spelling t).length)
  | keyword {t : Terminal} (hMem : t ∈ keywords) (hStarts : startsWith text i (spelling t) = true) :
      Reading text i (fixed t) (i + (spelling t).length)
  | identifier {b : UInt8} {bs : List UInt8} (hLetter : isLetter b = true)
      (hAll : bs.all isWordByte = true) (hStarts : startsWith text i (b :: bs) = true) :
      Reading text i identifier (i + (b :: bs).length)
  | decimal {b : UInt8} {bs : List UInt8} (hDigit : isDigit b = true) (hZero : b ≠ 0x30)
      (hAll : bs.all isDigit = true) (hStarts : startsWith text i (b :: bs) = true) :
      Reading text i decimal (i + (b :: bs).length)
  | octal {bs : List UInt8} (hAll : bs.all isOctalDigit = true)
      (hStarts : startsWith text i (0x30 :: bs) = true) : Reading text i octal (i + (0x30 :: bs).length)
  | hex {bs : List UInt8} (hTail : IsHexTail bs) (hStarts : startsWith text i (0x30 :: bs) = true) :
      Reading text i hex (i + (0x30 :: bs).length)
  | malformed {b : UInt8} {bs : List UInt8} (hDigit : isDigit b = true)
      (hAll : bs.all isWordByte = true) (hStarts : startsWith text i (b :: bs) = true) :
      Reading text i malformed (i + (b :: bs).length)

/-- Reading a word and more is finding its bytes and reading on behind them. -/
theorem reads_word_seq_iff {cs : List Char} {rest : Regex} (hAscii : ∀ c ∈ cs, c.toNat < 128) :
    (Regex.seq (word cs) rest).Reads text i k ↔
      startsWith text i (cs.map fun c => UInt8.ofNat c.toNat) = true
        ∧ rest.Reads text (i + cs.length) k := by
  rw [reads_seq_iff]
  constructor
  · rintro ⟨j, hWord, hRest⟩
    obtain ⟨-, rfl, hStarts, rfl⟩ := (written_word hAscii text i j).mp hWord
    rw [List.length_map] at hRest
    exact ⟨hStarts, hRest⟩
  · rintro ⟨hStarts, hRest⟩
    exact ⟨_, (written_word hAscii text i _).mpr ⟨_, rfl, hStarts, by rw [List.length_map]⟩, hRest⟩

/-- Whatever a pattern reads is one of the readings listed for it. -/
theorem reading_of_reads {pattern : Pattern} (hMem : pattern ∈ patterns)
    (hReads : pattern.regex.Reads text i k) : Reading text i pattern k := by
  simp only [patterns, List.mem_append, List.mem_cons, List.not_mem_nil, or_false, List.mem_map] at hMem
  rcases hMem with ((rfl | rfl | rfl | rfl) | ⟨t, hFixed, rfl⟩) | rfl | rfl | rfl | rfl | rfl
  · obtain ⟨bs, ⟨hSome, hAll⟩, hStarts, rfl⟩ := (written_blanks text i k).mp hReads
    exact .blanks hSome hAll hStarts
  · obtain ⟨hStarts, hRest⟩ := (reads_word_seq_iff (by simp)).mp hReads
    exact .lineComment hStarts (le_lineCommentEnd_of_reads hRest)
  · obtain ⟨hStarts, hRest⟩ := (reads_word_seq_iff (by simp)).mp hReads
    exact .blockComment hStarts (reads_closed_iff.mp hRest)
  · obtain ⟨hStarts, hRest⟩ := (reads_word_seq_iff (by simp)).mp hReads
    exact .openComment hStarts (le_of_reads_open hRest)
  · obtain ⟨-, rfl, hStarts, rfl⟩ := (written_fixed (List.mem_append.mpr hFixed) text i k).mp hReads
    rcases hFixed with hOperator | hKeyword
    · exact .operator hOperator hStarts
    · exact .keyword hKeyword hStarts
  · obtain ⟨-, ⟨b, bs, rfl, hLetter, hAll⟩, hStarts, rfl⟩ := (written_identifier text i k).mp hReads
    exact .identifier hLetter hAll hStarts
  · obtain ⟨-, ⟨b, bs, rfl, hBit, hAll⟩, hStarts, rfl⟩ := (written_decimal text i k).mp hReads
    rw [Bool.and_eq_true, bne_iff_ne] at hBit
    exact .decimal hBit.1 hBit.2 hAll hStarts
  · obtain ⟨-, ⟨b, bs, rfl, hBit, hAll⟩, hStarts, rfl⟩ := (written_octal text i k).mp hReads
    obtain rfl := eq_of_beq hBit
    exact .octal hAll hStarts
  · obtain ⟨-, ⟨bs, rfl, hTail⟩, hStarts, rfl⟩ := (written_hex text i k).mp hReads
    exact .hex hTail hStarts
  · obtain ⟨-, ⟨b, bs, rfl, hDigit, hAll⟩, hStarts, rfl⟩ := (written_malformed text i k).mp hReads
    exact .malformed hDigit hAll hStarts

/-! The first byte decides which patterns there are to choose from. -/

theorem spelling_facts :
    (∀ t ∈ operators, (spelling t).head?.any (fun b => !isDigit b && !isLetter b && !isBlank b
      && (b != 0x2F || t == .slash)) = true ∧ (spelling t).all (fun b => !isDigit b) = true)
    ∧ (∀ t ∈ keywords, (spelling t).head?.any isLetter = true ∧ (spelling t).all isWordByte = true)
    ∧ spelling .slash = [0x2F] ∧ ((operators ++ keywords).map spelling).Nodup
    ∧ operators.Pairwise fun t u => (spelling u).length ≤ (spelling t).length := by
  decide +kernel

/-- The first byte of what the text starts with is the first byte there. -/
theorem head?_of_startsWith {bs : List UInt8} {b : UInt8} (hStarts : startsWith text i bs = true)
    (hFirst : byteAt? text i = some b) : ∀ p : UInt8 → Bool, bs.head?.any p = true → p b = true := by
  intro p hHead
  cases bs with
  | nil => simp at hHead
  | cons c bs =>
      simp only [startsWith, Bool.and_eq_true, beq_iff_eq] at hStarts
      obtain rfl := Option.some.inj (hFirst.symm.trans hStarts.1)
      exact hHead

/-- A byte is a digit, a letter, a blank or a slash, but never two of them. -/
theorem classes (b : UInt8) : (isDigit b = true → isLetter b = false ∧ isBlank b = false ∧ b ≠ 0x2F)
    ∧ (isLetter b = true → isBlank b = false ∧ b ≠ 0x2F) ∧ (isBlank b = true → b ≠ 0x2F) := by
  simp only [isDigit, isLetter, isBlank, Bool.or_eq_true, Bool.and_eq_true, decide_eq_true_eq,
    Bool.or_eq_false_iff, Bool.and_eq_false_iff, decide_eq_false_iff_not, UInt8.le_iff_toNat_le, ne_eq,
    ← UInt8.toNat_inj, UInt8.reduceToNat]
  omega

theorem numberKind_decimal {b : UInt8} {bs : List UInt8} (hZero : b ≠ 0x30)
    (hAll : bs.all isDigit = true) : numberKind (b :: bs) = .decimalLiteral := by
  rw [numberKind.eq_def]
  exact (if_neg hZero).trans (if_pos hAll)

theorem numberKind_octal {bs : List UInt8} (hAll : bs.all isOctalDigit = true) :
    numberKind (0x30 :: bs) = .octalLiteral := by
  rw [numberKind.eq_def]
  refine (if_pos rfl).trans ?_
  split
  · rfl
  · rename_i x digits
    rw [if_neg, if_pos hAll]
    rw [List.all_cons, Bool.and_eq_true] at hAll
    simp only [Bool.and_eq_true, Bool.or_eq_true, decide_eq_true_eq]
    rintro ⟨⟨rfl | rfl, -⟩, -⟩
    all_goals exact absurd hAll.1 (by decide)

theorem numberKind_hex {bs : List UInt8} (hTail : IsHexTail bs) :
    numberKind (0x30 :: bs) = .hexLiteral := by
  cases bs with
  | nil => exact hTail.elim
  | cons x digits =>
      obtain ⟨hX, hSome, hAll⟩ := hTail
      rw [numberKind.eq_def]
      exact (if_pos rfl).trans (if_pos (by simp [hX, hSome, hAll]))

/-- A run that starts with a digit is one kind of number, and says how it is written. -/
theorem numberKind_cases (b : UInt8) (bs : List UInt8) :
    numberKind (b :: bs) = .decimalLiteral ∧ b ≠ 0x30 ∧ bs.all isDigit = true
      ∨ numberKind (b :: bs) = .octalLiteral ∧ b = 0x30 ∧ bs.all isOctalDigit = true
      ∨ numberKind (b :: bs) = .hexLiteral ∧ b = 0x30 ∧ IsHexTail bs
      ∨ numberKind (b :: bs) = .malformedNumber := by
  by_cases hZero : b = 0x30
  · subst hZero
    by_cases hOctal : bs.all isOctalDigit = true
    · exact .inr (.inl ⟨numberKind_octal hOctal, rfl, hOctal⟩)
    by_cases hHex : IsHexTail bs
    · exact .inr (.inr (.inl ⟨numberKind_hex hHex, rfl, hHex⟩))
    refine .inr (.inr (.inr ?_))
    rw [numberKind.eq_def]
    refine (if_pos rfl).trans ?_
    split
    · simp at hOctal
    · rename_i x digits
      rw [if_neg, if_neg hOctal]
      simpa [IsHexTail] using hHex
  · by_cases hAll : bs.all isDigit = true
    · exact .inl ⟨numberKind_decimal hZero hAll, hZero, hAll⟩
    · refine .inr (.inr (.inr ?_))
      rw [numberKind.eq_def]
      exact (if_neg hZero).trans (if_neg hAll)

theorem all_word_of_digits {bs : List UInt8} (hAll : bs.all isDigit = true) :
    bs.all isWordByte = true := by
  rw [List.all_eq_true] at hAll ⊢
  intro b hMem
  rw [isWordByte, hAll b hMem, Bool.or_true]

theorem all_word_of_octal {bs : List UInt8} (hAll : bs.all isOctalDigit = true) :
    (0x30 :: bs).all isWordByte = true := by
  refine all_word_of_digits ?_
  rw [List.all_eq_true] at hAll
  rw [List.all_cons, Bool.and_eq_true, List.all_eq_true]
  refine ⟨rfl, fun b hMem => ?_⟩
  have hOctal := hAll b hMem
  simp only [isOctalDigit, isDigit, Bool.and_eq_true, decide_eq_true_eq, UInt8.le_iff_toNat_le,
    UInt8.reduceToNat] at hOctal ⊢
  omega

theorem isWordByte_of_hex {b : UInt8} (hHex : isHexDigit b = true) : isWordByte b = true := by
  simp only [isHexDigit, isWordByte, isLetter, isDigit, Bool.and_eq_true, Bool.or_eq_true,
    decide_eq_true_eq, UInt8.le_iff_toNat_le, ← UInt8.toNat_inj, UInt8.reduceToNat] at hHex ⊢
  omega

/-- Hexadecimal digits behind an `x` are bytes of a word. -/
theorem all_word_of_hexTail {bs : List UInt8} (hTail : IsHexTail bs) : bs.all isWordByte = true := by
  cases bs with
  | nil => rfl
  | cons x digits =>
      obtain ⟨hX, -, hAll⟩ := hTail
      rw [List.all_eq_true] at hAll
      rw [List.all_cons, Bool.and_eq_true, List.all_eq_true]
      refine ⟨?_, fun b hMem => isWordByte_of_hex (hAll b hMem)⟩
      rcases hX with rfl | rfl <;> decide

/-- A word is read by its whole run, as a keyword only if these are the bytes of one. -/
def WordReading (text : ByteArray) (i : Nat) (pattern : Pattern) (k : Nat) : Prop :=
  k ≤ runEnd isWordByte text i
    ∧ (pattern = identifier ∨ ∃ t ∈ keywords, pattern = fixed t ∧ slice text i k = spelling t)

def NumberReading (text : ByteArray) (i : Nat) (pattern : Pattern) (k : Nat) : Prop :=
  k ≤ runEnd isWordByte text i ∧ (pattern = malformed
    ∨ pattern ∈ [decimal, octal, hex] ∧ pattern.terminal? = some (numberKind (slice text i k)))

def SlashReading (text : ByteArray) (i : Nat) (pattern : Pattern) (k : Nat) : Prop :=
  pattern = lineComment ∧ startsWith text i [0x2F, 0x2F] = true ∧ k ≤ lineCommentEnd text (i + 2)
    ∨ pattern = blockComment ∧ startsWith text i [0x2F, 0x2A] = true
      ∧ blockCommentEnd text (i + 2) = (true, k)
    ∨ pattern = openComment ∧ startsWith text i [0x2F, 0x2A] = true
      ∧ k + (if (blockCommentEnd text (i + 2)).1 = true then 1 else 0) ≤ (blockCommentEnd text (i + 2)).2
    ∨ pattern = fixed .slash ∧ k = i + 1

def OperatorReading (text : ByteArray) (i : Nat) (pattern : Pattern) (k : Nat) : Prop :=
  ∃ t ∈ operators, pattern = fixed t ∧ startsWith text i (spelling t) = true
    ∧ k = i + (spelling t).length

/-- The first byte decides which patterns can read anything. -/
theorem cases_of_reading {pattern : Pattern} {b : UInt8} (hReading : Reading text i pattern k)
    (hFirst : byteAt? text i = some b) :
    isBlank b = true ∧ pattern = blanks ∧ k ≤ runEnd isBlank text i
      ∨ b = 0x2F ∧ SlashReading text i pattern k
      ∨ isLetter b = true ∧ WordReading text i pattern k
      ∨ isDigit b = true ∧ NumberReading text i pattern k
      ∨ (isBlank b = false ∧ b ≠ 0x2F ∧ isLetter b = false ∧ isDigit b = false)
        ∧ OperatorReading text i pattern k := by
  obtain ⟨hOperators, hKeywords, hSlash, -, -⟩ := spelling_facts
  cases hReading with
  | @blanks bs hSome hAll hStarts =>
      obtain ⟨c, cs, rfl⟩ := List.exists_cons_of_ne_nil hSome
      have hBlank := head?_of_startsWith hStarts hFirst isBlank
        (by simpa using (List.all_eq_true.mp hAll) c (by simp))
      exact .inl ⟨hBlank, rfl, le_runEnd_of_startsWith hStarts hAll⟩
  | lineComment hStarts hEnd =>
      obtain rfl := Option.some.inj (hFirst.symm.trans (startsWith_pair.mp hStarts).1)
      exact .inr (.inl ⟨rfl, .inl ⟨rfl, hStarts, hEnd⟩⟩)
  | blockComment hStarts hEnd =>
      obtain rfl := Option.some.inj (hFirst.symm.trans (startsWith_pair.mp hStarts).1)
      exact .inr (.inl ⟨rfl, .inr (.inl ⟨rfl, hStarts, hEnd⟩)⟩)
  | openComment hStarts hEnd =>
      obtain rfl := Option.some.inj (hFirst.symm.trans (startsWith_pair.mp hStarts).1)
      exact .inr (.inl ⟨rfl, .inr (.inr (.inl ⟨rfl, hStarts, hEnd⟩))⟩)
  | @operator t hMem hStarts =>
      have hHead := head?_of_startsWith hStarts hFirst _ (hOperators t hMem).1
      simp only [Bool.and_eq_true, Bool.not_eq_true', Bool.or_eq_true, bne_iff_ne, beq_iff_eq] at hHead
      obtain ⟨⟨⟨hDigit, hLetter⟩, hBlank⟩, hOther⟩ := hHead
      by_cases hSame : b = 0x2F
      · obtain rfl := hOther.resolve_left (· hSame)
        exact .inr (.inl ⟨hSame, .inr (.inr (.inr ⟨rfl, by rw [hSlash]; rfl⟩))⟩)
      · exact .inr (.inr (.inr (.inr ⟨⟨hBlank, hSame, hLetter, hDigit⟩, t, hMem, rfl, hStarts, rfl⟩)))
  | @keyword t hMem hStarts =>
      obtain ⟨hHead, hAll⟩ := hKeywords t hMem
      exact .inr (.inr (.inl ⟨head?_of_startsWith hStarts hFirst _ hHead,
        le_runEnd_of_startsWith hStarts hAll, .inr ⟨t, hMem, rfl, slice_of_startsWith hStarts⟩⟩))
  | @identifier c bs hLetter hAll hStarts =>
      refine .inr (.inr (.inl ⟨head?_of_startsWith hStarts hFirst _ hLetter,
        le_runEnd_of_startsWith hStarts ?_, .inl rfl⟩))
      rw [List.all_cons, isWordByte, hLetter, hAll]
      rfl
  | @decimal c bs hDigit hZero hAll hStarts =>
      refine .inr (.inr (.inr (.inl ⟨head?_of_startsWith hStarts hFirst _ hDigit,
        le_runEnd_of_startsWith hStarts (all_word_of_digits ?_), .inr ⟨by simp, ?_⟩⟩)))
      · rw [List.all_cons, hDigit, hAll]
        rfl
      · rw [slice_of_startsWith hStarts, numberKind_decimal hZero hAll]
        rfl
  | @octal bs hAll hStarts =>
      refine .inr (.inr (.inr (.inl ⟨head?_of_startsWith hStarts hFirst isDigit rfl,
        le_runEnd_of_startsWith hStarts (all_word_of_octal hAll), .inr ⟨by simp, ?_⟩⟩)))
      rw [slice_of_startsWith hStarts, numberKind_octal hAll]
      rfl
  | @hex bs hTail hStarts =>
      refine .inr (.inr (.inr (.inl ⟨head?_of_startsWith hStarts hFirst isDigit rfl,
        le_runEnd_of_startsWith hStarts ?_, .inr ⟨by simp, ?_⟩⟩)))
      · rw [List.all_cons, all_word_of_hexTail hTail]
        rfl
      · rw [slice_of_startsWith hStarts, numberKind_hex hTail]
        rfl
  | @malformed c bs hDigit hAll hStarts =>
      refine .inr (.inr (.inr (.inl ⟨head?_of_startsWith hStarts hFirst _ hDigit,
        le_runEnd_of_startsWith hStarts ?_, .inl rfl⟩)))
      rw [List.all_cons, isWordByte, hDigit, hAll, Bool.or_true]
      rfl

end
end IncrementalParsing.SysY

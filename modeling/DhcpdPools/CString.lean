import Mathlib

/-!
Byte buffers as the string functions of C see them. A buffer is a list of
characters, the string in it ends at the first NUL, and reading past the end of
the list reads NUL. `fgets` cuts a file into pieces: the lines, if they are
shorter than the buffer (`pieces_lines`).
-/
namespace DhcpdPools

/-- The string in a buffer. -/
def cstr (buf : List Char) : List Char := buf.takeWhile (fun c => c ≠ '\x00')

def strlen (buf : List Char) : Nat := (cstr buf).length

def charAt (buf : List Char) (i : Nat) : Char := buf[i]?.getD '\x00'

/-- `!memcmp(s, buf, n)`. -/
def sameBytes (n : Nat) (s buf : List Char) : Bool := s.take n == buf.take n

/-- `strstr(s, needle) != NULL`. -/
def strstr : List Char → List Char → Bool
  | [], needle => needle.isPrefixOf []
  | c :: s, needle => needle.isPrefixOf (c :: s) || strstr s needle

/-- `isspace` in the C locale. -/
def isspace (c : Char) : Bool :=
  c = ' ' || c = '\t' || c = '\n' || c = '\x0b' || c = '\x0c' || c = '\r'

/-- A buffer after a string was written at its start. -/
def store (buf s : List Char) : List Char := s ++ '\x00' :: buf.drop (s.length + 1)

/-- `memccpy`: the destination afterwards, and the offset after the byte that stopped it. -/
def memccpy (dst src : List Char) (c : Char) (n : Nat) : List Char × Option Nat :=
  let window := src.take n
  match window.findIdx? (fun x => x = c) with
  | some i => (window.take (i + 1) ++ dst.drop (i + 1), some (i + 1))
  | none => (window ++ dst.drop window.length, none)

/-- Nothing after the character that stops `takeWhile` counts. -/
theorem takeWhile_stop {α : Type} (p : α → Bool) (s : List α) {c : α} (stops : p c = false) (rest : List α) :
    (s ++ c :: rest).takeWhile p = s.takeWhile p := by
  induction s with
  | nil => simp [stops]
  | cons x s ih =>
    rw [List.cons_append, List.takeWhile_cons, List.takeWhile_cons, ih]

theorem cstr_store (buf s : List Char) : cstr (store buf s) = cstr s :=
  takeWhile_stop _ s (by simp) _

theorem cstr_cstr (buf : List Char) : cstr (cstr buf) = cstr buf := by
  simp [cstr, List.takeWhile_takeWhile]

/-- Up to its NUL a buffer reads as the string in it. -/
theorem charAt_cstr {buf : List Char} {i : Nat} (inside : i ≤ strlen buf) : charAt buf i = charAt (cstr buf) i := by
  induction buf generalizing i with
  | nil => rfl
  | cons c buf ih =>
    by_cases stop : c = '\x00'
    · have first : i = 0 := by simpa [strlen, cstr, stop] using inside
      simp [first, charAt, cstr, stop]
    · cases i with
      | zero => simp [charAt, cstr, stop]
      | succ i =>
        have deeper : i ≤ strlen buf := by simpa [strlen, cstr, stop] using inside
        simpa [charAt, cstr, stop] using ih deeper

/-- Comparing with a string looks only at the string in the buffer. -/
theorem sameBytes_cstr {n : Nat} {s : List Char} (long : n ≤ s.length) (text : '\x00' ∉ s) (buf : List Char) :
    sameBytes n s buf = sameBytes n s (cstr buf) := by
  induction n generalizing s buf with
  | zero => simp [sameBytes]
  | succ n ih =>
    obtain ⟨a, s, rfl⟩ := List.exists_cons_of_length_pos (Nat.lt_of_lt_of_le (Nat.succ_pos n) long)
    cases buf with
    | nil => rfl
    | cons c buf =>
      by_cases stop : c = '\x00'
      · have differ : a ≠ c := fun same => text (by simp [same, stop])
        simp [sameBytes, cstr, stop, stop ▸ differ]
      · have rest := ih (Nat.le_of_succ_le_succ long) (fun h => text (List.mem_cons_of_mem _ h)) buf
        simp only [sameBytes, cstr] at rest
        by_cases same : a = c
        · simpa [sameBytes, cstr, stop, same] using rest
        · have first : (a == c) = false := by simpa using same
          simp [sameBytes, cstr, stop, first]

/-- A NUL in front of what is cut off ends the string there. -/
theorem cstr_take (s rest : List Char) (n : Nat) : cstr ((s ++ '\x00' :: rest).take n) = cstr (s.take n) := by
  rcases Nat.lt_or_ge s.length n with less | enough
  · obtain ⟨m, rfl⟩ : ∃ m, n = s.length + (m + 1) := ⟨n - s.length - 1, by omega⟩
    rw [List.take_length_add_append, List.take_succ_cons, cstr, takeWhile_stop _ _ (by simp),
      List.take_of_length_le (by omega), cstr]
  · rw [List.take_append_of_le_length enough]

/-- A byte of the source up to a blank or a NUL. -/
def inWord (c : Char) : Bool := c ≠ ' ' ∧ c ≠ '\x00'

theorem inWord_cstr {s : List Char} (plain : ' ' ∉ s) : s.takeWhile inWord = cstr s := by
  induction s with
  | nil => rfl
  | cons c s ih =>
    simp only [List.mem_cons, not_or] at plain
    have tail := ih plain.2
    simp only [cstr] at tail ⊢
    rw [List.takeWhile_cons, List.takeWhile_cons, tail]
    simp [inWord, Ne.symm plain.1]

/-- What `memccpy` up to a blank, the blank overwritten by NUL, leaves as a string. -/
theorem memccpy_word {dst src : List Char} {n : Nat} (ends : '\x00' ∈ src.take n) :
    cstr (match memccpy dst src ' ' n with
      | (copy, some stop) => copy.set (stop - 1) '\x00'
      | (copy, none) => copy) = src.takeWhile inWord := by
  have whole : src.takeWhile inWord = (src.take n).takeWhile inWord := by
    obtain ⟨a, b, split⟩ := List.append_of_mem ends
    conv_lhs => rw [← List.take_append_drop n src]
    rw [split, List.append_assoc, List.cons_append, takeWhile_stop _ _ (by simp [inWord]),
      takeWhile_stop _ _ (by simp [inWord])]
  rw [whole]
  unfold memccpy
  generalize src.take n = window at ends
  cases found : window.findIdx? (fun x => x = ' ') with
  | none =>
    have plain : ' ' ∉ window := by
      intro member
      simpa using List.findIdx?_eq_none_iff.mp found _ member
    obtain ⟨a, b, rfl⟩ := List.append_of_mem ends
    simp only [found]
    rw [inWord_cstr plain, List.append_assoc, List.cons_append, cstr, cstr, takeWhile_stop _ _ (by simp),
      takeWhile_stop _ _ (by simp)]
  | some i =>
    obtain ⟨inside, blank, before⟩ := List.findIdx?_eq_some_iff_getElem.mp found
    have plain : ' ' ∉ window.take i := by
      intro member
      obtain ⟨j, low, same⟩ := List.mem_iff_getElem.mp member
      have early : j < i := by simp at low; omega
      have differ : window[j] ≠ ' ' := by simpa using before j early
      exact differ (by simpa using same)
    have split : window = window.take i ++ ' ' :: window.drop (i + 1) := by
      have here : window[i] = ' ' := by simpa using blank
      rw [← here, ← List.drop_eq_getElem_cons inside, List.take_append_drop]
    have copied : (window.take (i + 1) ++ dst.drop (i + 1)).set i '\x00' =
        window.take i ++ '\x00' :: dst.drop (i + 1) := by
      rw [List.take_succ_eq_append_getElem inside, List.append_assoc, List.set_append_right _ _ (by simp)]
      simp [Nat.min_eq_left (Nat.le_of_lt inside)]
    simp only [found, Nat.add_sub_cancel, copied]
    rw [split, takeWhile_stop _ _ (by simp [inWord]), inWord_cstr plain, ← split, cstr, cstr,
      takeWhile_stop _ _ (by simp)]

theorem isPrefixOf_stop {needle : List Char} {c : Char} (absent : c ∉ needle) (s rest : List Char) :
    needle.isPrefixOf (s ++ c :: rest) = needle.isPrefixOf s := by
  induction needle generalizing s with
  | nil => simp
  | cons a needle ih =>
    simp only [List.mem_cons, not_or] at absent
    cases s with
    | nil =>
      have differ : (a == c) = false := by simpa using Ne.symm absent.1
      change (a == c && needle.isPrefixOf rest) = false
      rw [differ, Bool.false_and]
    | cons b s =>
      change (a == b && needle.isPrefixOf (s ++ c :: rest)) = (a == b && needle.isPrefixOf s)
      rw [ih absent.2 s]

/-- A needle is not found across a character that it does not have. -/
theorem strstr_stop {needle : List Char} {c : Char} (absent : c ∉ needle) (filled : needle ≠ []) (s rest : List Char) :
    strstr (s ++ c :: rest) needle = (strstr s needle || strstr rest needle) := by
  induction s with
  | nil =>
    have first : needle.isPrefixOf (c :: rest) = needle.isPrefixOf [] := isPrefixOf_stop absent [] rest
    have none : strstr [] needle = needle.isPrefixOf [] := rfl
    have empty : needle.isPrefixOf [] = false := by
      cases needle with
      | nil => exact absurd rfl filled
      | cons a needle => rfl
    rw [List.nil_append, none, empty, Bool.false_or]
    change (needle.isPrefixOf (c :: rest) || strstr rest needle) = strstr rest needle
    rw [first, empty, Bool.false_or]
  | cons a s ih =>
    have first : needle.isPrefixOf (a :: (s ++ c :: rest)) = needle.isPrefixOf (a :: s) :=
      isPrefixOf_stop absent (a :: s) rest
    change (needle.isPrefixOf (a :: (s ++ c :: rest)) || strstr (s ++ c :: rest) needle) =
      (needle.isPrefixOf (a :: s) || strstr s needle || strstr rest needle)
    rw [first, ih, Bool.or_assoc]

theorem cstr_self {s : List Char} (text : '\x00' ∉ s) : cstr s = s := by
  rw [cstr, List.takeWhile_eq_self_iff]
  intro c member
  have differ : c ≠ '\x00' := fun same => text (same ▸ member)
  simpa using differ

/-! ## Reading lines -/

/-- What `fgets` read: the characters, what is left of the file, and whether it met the end of it. -/
structure Got where
  piece : List Char
  rest : List Char
  eof : Bool

/-- `fgets` into a buffer with room for `room` characters and the NUL. It returns
    NULL, and leaves the buffer alone, exactly when the piece is empty. -/
def fgets : Nat → List Char → Got
  | 0, file => ⟨[], file, false⟩
  | _ + 1, [] => ⟨[], [], true⟩
  | room + 1, c :: rest =>
    if c = '\n' then ⟨[c], rest, false⟩
    else
      let got := fgets room rest
      ⟨c :: got.piece, got.rest, got.eof⟩

/-- A character in front of the first piece. -/
def glue (c : Char) : List (List Char) → List (List Char)
  | [] => [[c]]
  | p :: ps => (c :: p) :: ps

/-- The pieces that `fgets` cuts a file into: `size` is the room of the buffer,
    `room` what is left of it for the first piece. -/
def pieces (size : Nat) : Nat → List Char → List (List Char)
  | _, [] => []
  | room, c :: rest =>
    if c = '\n' ∨ room ≤ 1 then [c] :: pieces size size rest else glue c (pieces size (room - 1) rest)

/-- The lines of a file, each with its newline; the last one may have none. -/
def fileLines : List Char → List (List Char)
  | [] => []
  | c :: rest => if c = '\n' then [c] :: fileLines rest else glue c (fileLines rest)

theorem pieces_fgets {size room : Nat} (positive : 0 < room) {file : List Char} (more : file ≠ []) :
    pieces size room file = (fgets room file).piece :: pieces size size (fgets room file).rest := by
  induction file generalizing room with
  | nil => exact absurd rfl more
  | cons c rest ih =>
    obtain ⟨room, rfl⟩ := Nat.exists_eq_succ_of_ne_zero (Nat.ne_of_gt positive)
    by_cases newline : c = '\n'
    · simp [pieces, fgets, newline]
    · cases room with
      | zero => simp [pieces, fgets, newline]
      | succ room =>
        cases rest with
        | nil => simp [pieces, fgets, newline, glue]
        | cons d rest =>
          have tail := ih (Nat.succ_pos room) (List.cons_ne_nil d rest)
          rw [pieces, if_neg (by simp [newline]), Nat.succ_sub_one, tail, glue]
          simp only [fgets.eq_3 (room + 1), if_neg newline]

theorem fgets_rest (room : Nat) (file : List Char) :
    (fgets room file).piece ++ (fgets room file).rest = file := by
  induction room generalizing file with
  | zero => rfl
  | succ room ih =>
    cases file with
    | nil => rfl
    | cons c rest =>
      by_cases newline : c = '\n'
      · simp [fgets, newline]
      · simp [fgets, newline, ih rest]

theorem fgets_piece {room : Nat} (positive : 0 < room) {file : List Char} (more : file ≠ []) :
    (fgets room file).piece ≠ [] := by
  obtain ⟨room, rfl⟩ := Nat.exists_eq_succ_of_ne_zero (Nat.ne_of_gt positive)
  cases file with
  | nil => exact absurd rfl more
  | cons c rest =>
    rw [fgets]
    split_ifs <;> simp

/-- The end of the file is met with nothing left. -/
theorem fgets_eof {room : Nat} {file : List Char} (met : (fgets room file).eof = true) :
    (fgets room file).rest = [] := by
  induction room generalizing file with
  | zero => cases met
  | succ room ih =>
    cases file with
    | nil => rfl
    | cons c rest =>
      by_cases newline : c = '\n'
      · simp [fgets, newline] at met
      · simp only [fgets, if_neg newline] at met ⊢
        exact ih met

/-- A line is a newline alone, or it begins with another character. -/
theorem forall_fileLines {P : List Char → Prop} (newline : P ['\n']) (last : ∀ c, c ≠ '\n' → P [c])
    (cons : ∀ c line, c ≠ '\n' → line ≠ [] → P line → P (c :: line)) {file : List Char} :
    ∀ l ∈ fileLines file, l ≠ [] ∧ P l := by
  induction file with
  | nil => exact fun _ member => by cases member
  | cons c rest ih =>
    rw [fileLines]
    split_ifs with same
    · subst same
      exact List.forall_mem_cons.mpr ⟨⟨List.cons_ne_nil _ _, newline⟩, ih⟩
    · cases lines : fileLines rest with
      | nil => simpa [glue] using last c same
      | cons p ps =>
        rw [lines] at ih
        obtain ⟨⟨filled, holds⟩, others⟩ := List.forall_mem_cons.mp ih
        exact List.forall_mem_cons.mpr ⟨⟨List.cons_ne_nil _ _, cons c p same filled holds⟩, others⟩

theorem fileLines_nonempty {file : List Char} (l : List Char) (member : l ∈ fileLines file) : l ≠ [] :=
  (@forall_fileLines (fun _ => True) trivial (fun _ _ => trivial) (fun _ _ _ _ _ => trivial) _ l member).1

theorem fileLines_eq_nil {file : List Char} (none : fileLines file = []) : file = [] := by
  cases file with
  | nil => rfl
  | cons c rest =>
    rw [fileLines] at none
    split_ifs at none
    cases lines : fileLines rest <;> simp [lines, glue] at none

/-- Lines that fit into the buffer are read whole. -/
theorem pieces_lines {size room : Nat} {file : List Char} (fits : ∀ l ∈ fileLines file, l.length ≤ size)
    (first : ∀ l ∈ (fileLines file).head?, l.length ≤ room) : pieces size room file = fileLines file := by
  induction file generalizing room with
  | nil => rfl
  | cons c rest ih =>
    rw [fileLines] at fits first
    rw [pieces, fileLines]
    by_cases newline : c = '\n'
    · rw [if_pos newline] at fits first
      rw [if_pos (Or.inl newline), if_pos newline]
      have tail : ∀ l ∈ fileLines rest, l.length ≤ size := fun l member => fits l (List.mem_cons_of_mem _ member)
      rw [ih tail (fun l member => tail l (List.mem_of_mem_head? member))]
    · rw [if_neg newline] at fits first ⊢
      cases lines : fileLines rest with
      | nil =>
        have done : rest = [] := fileLines_eq_nil lines
        subst done
        split_ifs <;> rfl
      | cons p ps =>
        rw [lines] at fits first
        have whole : (c :: p).length ≤ room := first _ rfl
        have filled : p ≠ [] := fileLines_nonempty p (lines ▸ List.mem_cons_self)
        have more : ¬(c = '\n' ∨ room ≤ 1) := by
          have := List.length_pos_iff.mpr filled
          simp only [List.length_cons] at whole
          rintro (same | full)
          · exact newline same
          · omega
        have size' : ∀ l ∈ fileLines rest, l.length ≤ size := by
          intro l member
          rcases List.mem_cons.mp (lines ▸ member) with rfl | later
          · have : (c :: l).length ≤ size := fits _ List.mem_cons_self
            simp at this
            omega
          · exact fits l (List.mem_cons_of_mem _ later)
        have next : ∀ l ∈ (fileLines rest).head?, l.length ≤ room - 1 := by
          intro l member
          obtain rfl : p = l := by simpa [lines] using member
          simp only [List.length_cons] at whole
          omega
        rw [if_neg more, ih size' next, lines]

/-- A line that ends in a newline is cut off from what follows it. -/
theorem pieces_append {size : Nat} (line file : List Char) :
    ∀ room, pieces size room (line ++ '\n' :: file) = pieces size room (line ++ ['\n']) ++ pieces size size file := by
  induction line with
  | nil =>
    intro room
    simp [pieces]
  | cons c line ih =>
    intro room
    rw [List.cons_append, List.cons_append, pieces, pieces]
    by_cases stop : c = '\n' ∨ room ≤ 1
    · rw [if_pos stop, if_pos stop, ih size, List.cons_append]
    · rw [if_neg stop, if_neg stop, ih (room - 1)]
      cases first : pieces size (room - 1) (line ++ ['\n']) with
      | nil =>
        have := @pieces_fgets size (room - 1) (by omega) (line ++ ['\n']) (by simp)
        rw [first] at this
        cases this
      | cons p ps => rfl

theorem fileLines_flatten (file : List Char) : (fileLines file).flatten = file := by
  induction file with
  | nil => rfl
  | cons c rest ih =>
    rw [fileLines]
    split_ifs
    · simp [ih]
    · cases lines : fileLines rest with
      | nil => simp [glue, fileLines_eq_nil lines]
      | cons p ps => simpa [glue, lines] using ih

/-- A line that ends in a newline. -/
def Terminated (line : List Char) : Prop := ∃ text, line = text ++ ['\n']

/-- Only the last line of a file may lack its newline. -/
theorem fileLines_terminated (file : List Char) : (fileLines file).Pairwise (fun line _ => Terminated line) := by
  induction file with
  | nil => exact List.Pairwise.nil
  | cons c rest ih =>
    rw [fileLines]
    split_ifs with newline
    · exact List.pairwise_cons.mpr ⟨fun _ _ => ⟨[], by simp [newline]⟩, ih⟩
    · cases lines : fileLines rest with
      | nil => exact List.pairwise_singleton _ _
      | cons p ps =>
        obtain ⟨first, others⟩ := List.pairwise_cons.mp (lines ▸ ih)
        refine List.pairwise_cons.mpr ⟨fun l member => ?_, others⟩
        obtain ⟨text, rfl⟩ := first l member
        exact ⟨c :: text, rfl⟩

/-- A piece ends its line or fills the buffer, unless it ends the file. -/
theorem fgets_full (room : Nat) (file : List Char) :
    Terminated (fgets room file).piece ∨ room ≤ (fgets room file).piece.length ∨ (fgets room file).rest = [] := by
  induction file generalizing room with
  | nil => cases room <;> simp [fgets]
  | cons c rest ih =>
    cases room with
    | zero => simp [fgets]
    | succ room =>
      by_cases newline : c = '\n'
      · exact Or.inl ⟨[], by simp [fgets, newline]⟩
      · rw [fgets, if_neg newline]
        rcases ih room with ⟨text, ends⟩ | full | last
        · exact Or.inl ⟨c :: text, by simp [ends]⟩
        · exact Or.inr (Or.inl (Nat.succ_le_succ full))
        · exact Or.inr (Or.inr last)

/-- Only the last piece of a file may lack both. -/
theorem pieces_full {size : Nat} (positive : 0 < size) (file : List Char) :
    (pieces size size file).Pairwise (fun piece _ => Terminated piece ∨ size ≤ piece.length) := by
  induction length : file.length using Nat.strong_induction_on generalizing file with
  | _ n ih =>
    subst length
    by_cases empty : file = []
    · rw [empty, pieces]
      exact List.Pairwise.nil
    · have split := congrArg List.length (fgets_rest size file)
      have filled := List.length_pos_iff.mpr (fgets_piece positive empty)
      rw [List.length_append] at split
      rw [pieces_fgets positive empty]
      refine List.pairwise_cons.mpr ⟨fun later member => ?_, ih _ (by omega) _ rfl⟩
      rcases fgets_full size file with ends | full | last
      · exact Or.inl ends
      · exact Or.inr full
      · rw [last, pieces] at member
        cases member

/-- `fgets` never reads across the end of a line. -/
theorem pieces_flatten (size : Nat) {lines : List (List Char)} (ends : lines.Pairwise (fun line _ => Terminated line)) :
    pieces size size lines.flatten = lines.flatMap (pieces size size) := by
  induction lines with
  | nil => rfl
  | cons line rest ih =>
    obtain ⟨first, others⟩ := List.pairwise_cons.mp ends
    cases rest with
    | nil => simp
    | cons next rest =>
      obtain ⟨text, rfl⟩ := first next List.mem_cons_self
      rw [List.flatten_cons, List.append_assoc, List.singleton_append, pieces_append, ih others]
      rfl

/-- The pieces of a file are those of its lines. -/
theorem pieces_fileLines (size : Nat) (file : List Char) :
    pieces size size file = (fileLines file).flatMap (pieces size size) := by
  rw [← pieces_flatten size (fileLines_terminated file), fileLines_flatten]

/-- A line has no newline before its end. -/
theorem fileLines_newline {file : List Char} (l : List Char) (member : l ∈ fileLines file) : '\n' ∉ l.dropLast := by
  refine (@forall_fileLines (fun l => '\n' ∉ l.dropLast) (by simp) (by simp) ?_ _ l member).2
  intro c line other filled plain
  rw [List.dropLast_cons_of_ne_nil filled, List.mem_cons, not_or]
  exact ⟨Ne.symm other, plain⟩

/-- Within a line only the size of the buffer cuts. -/
theorem pieces_take {size : Nat} {line : List Char} (plain : '\n' ∉ line.dropLast) (filled : line ≠ []) :
    ∀ {room}, 0 < room → pieces size room line = line.take room :: pieces size size (line.drop room) := by
  induction line with
  | nil => exact absurd rfl filled
  | cons c rest ih =>
    intro room positive
    obtain ⟨room, rfl⟩ := Nat.exists_eq_succ_of_ne_zero (Nat.ne_of_gt positive)
    rw [List.take_succ_cons, List.drop_succ_cons]
    cases rest with
    | nil => simp [pieces, glue]
    | cons d rest =>
      rw [List.dropLast_cons_of_ne_nil (List.cons_ne_nil d rest), List.mem_cons, not_or] at plain
      cases room with
      | zero => rw [pieces, if_pos (Or.inr (Nat.le_refl 1)), List.take_zero, List.drop_zero]
      | succ room =>
        rw [pieces, if_neg (by simp [Ne.symm plain.1]), Nat.succ_sub_one,
          ih plain.2 (List.cons_ne_nil d rest) (Nat.succ_pos room), glue]

theorem newline_drop {line : List Char} (plain : '\n' ∉ line.dropLast) (n : Nat) : '\n' ∉ (line.drop n).dropLast := by
  have front : (line.drop n).dropLast = line.dropLast.drop n := by
    rw [List.dropLast_eq_take, List.dropLast_eq_take, List.drop_take, List.length_drop, Nat.sub_right_comm]
  rw [front]
  exact fun member => plain (List.mem_of_mem_drop member)

/-- The pieces of a line start at the multiples of the size. -/
theorem forall_pieces {size : Nat} (positive : 0 < size) (P : List Char → Prop) (line : List Char)
    (plain : '\n' ∉ line.dropLast) :
    (∀ piece ∈ pieces size size line, P piece) ↔
      ∀ i, size * i < line.length → P ((line.drop (size * i)).take size) := by
  induction length : line.length using Nat.strong_induction_on generalizing line with
  | _ n ih =>
    subst length
    rcases List.eq_nil_or_concat line with rfl | ⟨front, c, named⟩
    · simp [pieces]
    · have filled : line ≠ [] := by simp [named]
      have shorter : (line.drop size).length < line.length := by
        have := List.length_pos_iff.mpr filled
        simp only [List.length_drop]
        omega
      rw [pieces_take plain filled positive, List.forall_mem_cons,
        ih _ shorter (line.drop size) (newline_drop plain size) rfl]
      constructor
      · rintro ⟨first, later⟩ i inside
        cases i with
        | zero => simpa using first
        | succ i =>
          have start : size * (i + 1) = size + size * i := by rw [Nat.mul_succ, Nat.add_comm]
          have next := later i (by rw [List.length_drop]; omega)
          rwa [List.drop_drop, ← start] at next
      · intro each
        refine ⟨by simpa using each 0 (by simpa using List.length_pos_iff.mpr filled), ?_⟩
        intro i inside
        have start : size * (i + 1) = size + size * i := by rw [Nat.mul_succ, Nat.add_comm]
        have next := each (i + 1) (by rw [List.length_drop] at inside; omega)
        rwa [start, ← List.drop_drop] at next

end DhcpdPools

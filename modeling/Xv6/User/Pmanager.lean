import Xv6.Base

/- The command loop of the process manager (`project2_LWP/pmanager.c`, with `gets` of
   `ulib.c`): a line is read into `buffer`, and `strtok` hands out its fields one call
   after the other.

   `strtok` remembers in `prev` where it goes on. It sets `prev` when it meets a
   separator and leaves it alone when it meets the end of the string, so the call that
   returns the last field of a line does not move on. `served` says what calls from a
   pointer into the buffer then return: the fields in order, and the last one again
   and again (`fetch_served`). A line with one field does not set `prev` at all: a
   further call goes on where an earlier line has left it, or at address 0
   (`command_served`).

   The two are the only ways in which the tokens of a line can be wrong
   (`tokens_right_iff`): a line is served right exactly when its command does not ask
   for more tokens than the line has fields, or the line is one word and `prev` is not
   at text behind its end. -/
namespace Xv6.User

abbrev BUFFER_SIZE : Nat := 128

def SPACE : UInt8 := 32
def NEWLINE : UInt8 := 10
def RETURN : UInt8 := 13

/-- A `char *` of the program: into its image, which begins at address 0 (`-Ttext 0`),
or into `buffer`. -/
inductive Ptr where
  | image (a : Nat)
  | buffer (o : Nat)
  deriving DecidableEq, Repr

def NULL : Ptr := .image 0

def Ptr.add : Ptr → Nat → Ptr
  | .image a, i => .image (a + i)
  | .buffer o, i => .buffer (o + i)

/-- The memory `strtok` reads and writes. The pages of the image are writable. -/
structure Mem where
  image : List UInt8
  buffer : List UInt8
  prev : Ptr
  deriving DecidableEq, Repr

namespace Mem

/-- The bytes from a pointer on. -/
def bytes (m : Mem) : Ptr → List UInt8
  | .image a => m.image.drop a
  | .buffer o => m.buffer.drop o

/-- `*p = 0`. -/
def clear (m : Mem) : Ptr → Mem
  | .image a => { m with image := m.image.set a 0 }
  | .buffer o => { m with buffer := m.buffer.set o 0 }

/-- The string a pointer is at. -/
def str (m : Mem) (p : Ptr) : List UInt8 := (m.bytes p).takeWhile (fun b => b != 0)

end Mem

/-- The loop of `strtok`: `some (some i)` when it breaks at the separator in place `i`,
`some none` when it ends at the NUL, `none` when the memory ends first. -/
def scan (c : UInt8) : List UInt8 → Option (Option Nat)
  | [] => none
  | b :: bs =>
    if b = 0 then some none
    else if b = c then some (some 0)
    else (scan c bs).map (Option.map (· + 1))

def strtok (m : Mem) (buffer : Ptr) (c : UInt8) : Option (Ptr × Mem) :=
  let buffer := if buffer = NULL then m.prev else buffer
  match scan c (m.bytes buffer) with
  | none => none
  | some none => some (buffer, m)
  | some (some i) => some (buffer, { m.clear (buffer.add i) with prev := buffer.add (i + 1) })

/-- The loop of `gets`: what it stores, and what is left of the input. -/
def readLine : Nat → List UInt8 → List UInt8 × List UInt8
  | 0, input => ([], input)
  | _ + 1, [] => ([], [])
  | n + 1, c :: input =>
    if c = NEWLINE ∨ c = RETURN then ([c], input)
    else (c :: (readLine n input).1, (readLine n input).2)

def gets (buf : List UInt8) (max : Nat) (input : List UInt8) : List UInt8 × List UInt8 :=
  let (cs, input) := readLine (max - 1) input
  (cs ++ 0 :: buf.drop (cs.length + 1), input)

/-- The loop of `main` that ends the buffer at its first newline. -/
def chop : List UInt8 → List UInt8
  | [] => []
  | c :: cs => if c = NEWLINE then 0 :: cs else c :: chop cs

/-- `enum itype`. -/
inductive Itype where
  | LIST | KILL | EXECUTE | MEMLIM | EXIT
  deriving DecidableEq, Repr

def ascii (s : List Char) : List UInt8 := s.map Char.toUInt8

def instructions : List (Itype × List UInt8) :=
  [(.LIST, ascii ['l', 'i', 's', 't']), (.KILL, ascii ['k', 'i', 'l', 'l']),
    (.EXECUTE, ascii ['e', 'x', 'e', 'c', 'u', 't', 'e']),
    (.MEMLIM, ascii ['m', 'e', 'm', 'l', 'i', 'm']), (.EXIT, ascii ['e', 'x', 'i', 't'])]

/-- The instruction whose name `strcmp` finds equal to the token; `none` is -1. -/
def curIns (token : List UInt8) : Option Itype :=
  (instructions.find? (fun i => i.2 == token)).map Prod.fst

/-- How many calls `strtok(0, ' ')` the branch of an instruction makes. -/
def fetches : Option Itype → Nat
  | none => 0
  | some .LIST => 0
  | some .KILL => 1
  | some .EXECUTE => 2
  | some .MEMLIM => 2
  | some .EXIT => 0

/-- What a call of `strtok` returns: the pointer, and the string it is at on return. -/
structure Token where
  ptr : Ptr
  str : List UInt8
  deriving DecidableEq, Repr

/-- So many calls `strtok(0, ' ')`. -/
def fetch : Nat → Mem → Option (List Token × Mem)
  | 0, m => some ([], m)
  | n + 1, m =>
    match strtok m NULL SPACE with
    | none => none
    | some (p, m) => (fetch n m).map (fun r => (⟨p, m.str p⟩ :: r.1, r.2))

/-- The calls of `strtok` for the line in the buffer. -/
def command (m : Mem) : Option (List Token × Mem × Option Itype) :=
  match strtok m (.buffer 0) SPACE with
  | none => none
  | some (p, m) =>
    (fetch (fetches (curIns (m.str p))) m).map (fun r =>
      (⟨p, m.str p⟩ :: r.1, r.2, curIns (m.str p)))

/-- One round of the loop of `main`: the memory at the first call of `strtok`, and
what the calls return. -/
structure Turn where
  before : Mem
  tokens : List Token
  deriving DecidableEq, Repr

/-- The first rounds of the loop of `main`, until the command `exit`. -/
def main : Nat → Mem → List UInt8 → Option (List Turn)
  | 0, _, _ => some []
  | n + 1, m, input =>
    let (buffer, input) := gets m.buffer BUFFER_SIZE input
    let m := { m with buffer := chop buffer }
    match command m with
    | none => none
    | some (tokens, m', ins) =>
      if ins = some .EXIT then some [⟨m, tokens⟩]
      else (main n m' input).map (fun ts => ⟨m, tokens⟩ :: ts)

/-! ## Lines and their fields -/

def Field (f : List UInt8) : Prop := f ≠ [] ∧ ∀ b ∈ f, b ≠ 0 ∧ b ≠ SPACE ∧ b ≠ NEWLINE

/-- A command line: fields that are separated by single spaces. -/
structure Line where
  fields : List (List UInt8)
  ok : ∀ f ∈ fields, Field f

instance : DecidablePred Field := fun f =>
  inferInstanceAs (Decidable (f ≠ [] ∧ ∀ b ∈ f, b ≠ 0 ∧ b ≠ SPACE ∧ b ≠ NEWLINE))

def Line.text (l : Line) : List UInt8 := [SPACE].intercalate l.fields

/-- The lines that `gets` hands to `main` in so many calls, without their newlines. -/
def delivered : Nat → List UInt8 → List (List UInt8)
  | 0, _ => []
  | n + 1, input =>
    let (cs, input) := readLine (BUFFER_SIZE - 1) input
    cs.takeWhile (fun c => c != NEWLINE) :: delivered n input

/-- How many calls of `strtok` the command of a line makes. -/
def Line.calls (l : Line) : Nat := 1 + fetches (curIns (l.fields.headD []))

/-- The lines up to the first `exit`. -/
def untilExit : List Line → List Line
  | [] => []
  | l :: ls => if curIns (l.fields.headD []) = some .EXIT then [l] else l :: untilExit ls

/-- The token is at text behind the end of the line. -/
def Line.LeftOver (l : Line) (tok : Token) : Prop :=
  ∃ o, tok.ptr = .buffer o ∧ l.text.length < o ∧ tok.str ≠ []

/-- The tokens are the fields of the line, in order, and a token that was asked for
after the last field is not one of them again and is no text of an earlier line. -/
structure Line.Right (l : Line) (toks : List Token) : Prop where
  fields : (toks.take l.fields.length).map Token.str = l.fields.take toks.length
  further : ∀ tok ∈ toks.drop l.fields.length,
    tok.ptr ∉ (toks.take l.fields.length).map Token.ptr ∧ ¬ l.LeftOver tok

/-- What `prev` is at is text behind the end of the line. -/
def Line.Stale (l : Line) (m : Mem) : Prop :=
  ∃ o b, m.prev = .buffer o ∧ l.text.length < o ∧ m.buffer[o]? = some b ∧ b ≠ 0

/-- The command makes no more calls than the line has fields; or the line is one word,
and `strtok` has not kept text behind its end. -/
def Line.Served (l : Line) (m : Mem) : Prop :=
  l.calls ≤ l.fields.length ∨ l.fields.length ≤ 1 ∧ (l.calls ≤ 1 ∨ ¬ l.Stale m)

/-! ## Calls of strtok from a pointer into the buffer -/

section Calls

variable {m m' : Mem} {o : Nat} {q : Ptr} {f a t : List UInt8} {fs : List (List UInt8)}

theorem scan_nul (c : UInt8) : ∀ a : List UInt8, (∀ b ∈ a, b ≠ 0 ∧ b ≠ c) →
    scan c (a ++ 0 :: t) = some none
  | [], _ => rfl
  | b :: a, h => by
    obtain ⟨hb, ha⟩ := List.forall_mem_cons.mp h
    show (if b = 0 then _ else if b = c then _ else (scan c (a ++ 0 :: t)).map _) = _
    rw [if_neg hb.1, if_neg hb.2, scan_nul c a ha]
    rfl

theorem scan_sep {c : UInt8} (hc : c ≠ 0) : ∀ a : List UInt8, (∀ b ∈ a, b ≠ 0 ∧ b ≠ c) →
    scan c (a ++ c :: t) = some (some a.length)
  | [], _ => by
    show (if c = 0 then _ else if c = c then _ else _) = _
    rw [if_neg hc, if_pos rfl]
    rfl
  | b :: a, h => by
    obtain ⟨hb, ha⟩ := List.forall_mem_cons.mp h
    show (if b = 0 then _ else if b = c then _ else (scan c (a ++ c :: t)).map _) = _
    rw [if_neg hb.1, if_neg hb.2, scan_sep hc a ha]
    rfl

/-- A scan that has a NUL before it returns, and leaves that NUL behind it. -/
theorem scan_some (c : UInt8) : ∀ l : List UInt8, 0 ∈ l →
    ∃ r, scan c l = some r ∧ ∀ i, r = some i → 0 ∈ l.drop (i + 1)
  | b :: l, h => by
    by_cases hb : b = 0
    · exact ⟨none, if_pos hb, fun i hi => by cases hi⟩
    · have hl : 0 ∈ l := (List.mem_cons.mp h).resolve_left (fun he => hb he.symm)
      by_cases hc : b = c
      · refine ⟨some 0, ?_, fun i hi => ?_⟩
        · show (if b = 0 then _ else if b = c then _ else _) = _
          rw [if_neg hb, if_pos hc]
        · cases hi
          exact hl
      · obtain ⟨r, hr, hi⟩ := scan_some c l hl
        refine ⟨r.map (· + 1), ?_, fun i hi' => ?_⟩
        · show (if b = 0 then _ else if b = c then _ else (scan c l).map _) = _
          rw [if_neg hb, if_neg hc, hr]
          rfl
        · obtain ⟨j, hj, rfl⟩ := Option.map_eq_some_iff.mp hi'
          exact hi j hj

theorem str_nul (h : ∀ b ∈ a, b ≠ 0) (hb : m.buffer.drop o = a ++ 0 :: t) : m.str (.buffer o) = a := by
  show (m.buffer.drop o).takeWhile _ = a
  rw [hb, List.takeWhile_append_of_pos (fun b hm => by simpa using h b hm)]
  simp

theorem strtok_scan {p : Ptr} {r : Option Nat} (hq : (if q = NULL then m.prev else q) = p)
    (hs : scan SPACE (m.bytes p) = some r) : strtok m q SPACE = some (p, match r with
      | none => m
      | some i => { m.clear (p.add i) with prev := p.add (i + 1) }) := by
  simp only [strtok, hq, hs]
  cases r <;> rfl

/-- A call that meets the end of the string changes nothing. -/
theorem strtok_nul (hq : (if q = NULL then m.prev else q) = .buffer o)
    (hb : m.buffer.drop o = a ++ 0 :: t) (ha : ∀ b ∈ a, b ≠ 0 ∧ b ≠ SPACE) :
    strtok m q SPACE = some (.buffer o, m) := by
  have hs : scan SPACE (m.bytes (.buffer o)) = some none := by
    show scan SPACE (m.buffer.drop o) = _
    rw [hb]
    exact scan_nul SPACE a ha
  exact strtok_scan hq hs

/-- A call that meets a separator ends the string there and keeps what follows. -/
theorem strtok_sep (hq : (if q = NULL then m.prev else q) = .buffer o)
    (hb : m.buffer.drop o = a ++ SPACE :: t) (ha : ∀ b ∈ a, b ≠ 0 ∧ b ≠ SPACE) :
    ∃ m', strtok m q SPACE = some (.buffer o, m') ∧ m'.prev = .buffer (o + a.length + 1) ∧
      m'.buffer.drop o = a ++ 0 :: t := by
  have hs : scan SPACE (m.bytes (.buffer o)) = some (some a.length) := by
    show scan SPACE (m.buffer.drop o) = _
    rw [hb]
    exact scan_sep (by decide) a ha
  refine ⟨{ m.clear (.buffer (o + a.length)) with prev := .buffer (o + a.length + 1) }, ?_, ?_, ?_⟩
  · exact strtok_scan hq hs
  · rfl
  · show (m.buffer.set (o + a.length) 0).drop o = _
    rw [List.drop_set, if_neg (by omega), hb, Nat.add_sub_cancel_left,
      List.set_append_right _ _ (Nat.le_refl _), Nat.sub_self]
    rfl

/-- `strtok` goes on in the buffer at these fields. -/
structure Holds (m : Mem) (o : Nat) (fs : List (List UInt8)) : Prop where
  prev : m.prev = .buffer o
  fields : ∀ f ∈ fs, Field f
  bytes : ∃ rest, m.buffer.drop o = [SPACE].intercalate fs ++ 0 :: rest

/-- What so many calls return when the first goes on at `fs` in place `o`: the last
field does not move the pointer. -/
def served : Nat → Nat → List (List UInt8) → List Token
  | 0, _, _ => []
  | k + 1, o, [] => ⟨.buffer o, []⟩ :: served k o []
  | k + 1, o, [f] => ⟨.buffer o, f⟩ :: served k o [f]
  | k + 1, o, f :: g :: gs => ⟨.buffer o, f⟩ :: served k (o + f.length + 1) (g :: gs)

theorem Field.clean (h : Field f) : ∀ b ∈ f, b ≠ 0 ∧ b ≠ SPACE := fun b hb =>
  ⟨(h.2 b hb).1, (h.2 b hb).2.1⟩

/-- One call. -/
theorem Holds.strtok (h : Holds m o fs) (k : Nat) : ∃ m' o' fs' tok,
    strtok m NULL SPACE = some (.buffer o, m') ∧ tok = ⟨.buffer o, m'.str (.buffer o)⟩ ∧
      served (k + 1) o fs = tok :: served k o' fs' ∧ o ≤ o' ∧ Holds m' o' fs' := by
  obtain ⟨rest, hb⟩ := h.bytes
  have hq : (if NULL = NULL then m.prev else NULL) = .buffer o := (if_pos rfl).trans h.prev
  match fs, h, hb with
  | [], h, hb =>
    have hb' : m.buffer.drop o = [] ++ 0 :: rest := hb
    have hs : m.str (.buffer o) = [] := str_nul (fun b hm => absurd hm List.not_mem_nil) hb'
    refine ⟨m, o, [], _, strtok_nul hq hb' (fun b hm => absurd hm List.not_mem_nil), rfl, ?_,
      Nat.le_refl o, h⟩
    rw [hs]
    rfl
  | [f], h, hb =>
    have hf := h.fields f (List.mem_singleton_self f)
    have hb' : m.buffer.drop o = f ++ 0 :: rest := by
      simpa using hb
    have hs : m.str (.buffer o) = f := str_nul (fun b hm => (hf.clean b hm).1) hb'
    refine ⟨m, o, [f], _, strtok_nul hq hb' hf.clean, rfl, ?_, Nat.le_refl o, h⟩
    rw [hs]
    rfl
  | f :: g :: gs, h, hb =>
    obtain ⟨hf, hgs⟩ := List.forall_mem_cons.mp h.fields
    have hb' : m.buffer.drop o = f ++ SPACE :: ([SPACE].intercalate (g :: gs) ++ 0 :: rest) := by
      rw [hb, List.intercalate_cons_cons]
      simp
    obtain ⟨m', hcall, hprev, hdrop⟩ := strtok_sep hq hb' hf.clean
    have hs : m'.str (.buffer o) = f := str_nul (fun b hm => (hf.clean b hm).1) hdrop
    refine ⟨m', o + f.length + 1, g :: gs, _, hcall, rfl, ?_, by omega, hprev, hgs, rest, ?_⟩
    · rw [hs]
      rfl
    · rw [Nat.add_assoc, ← List.drop_drop, hdrop]
      simp

theorem fetch_served : ∀ (k : Nat) (m : Mem) (o : Nat) (fs : List (List UInt8)), Holds m o fs →
    ∃ m' o' fs', fetch k m = some (served k o fs, m') ∧ o ≤ o' ∧ Holds m' o' fs' := by
  intro k
  induction k with
  | zero =>
    intro m o fs h
    exact ⟨m, o, fs, rfl, Nat.le_refl o, h⟩
  | succ k ih =>
    intro m o fs h
    obtain ⟨m₁, o₁, fs₁, tok, hcall, htok, hserved, hle, h₁⟩ := h.strtok k
    obtain ⟨m', o', fs', hfetch, hle', h'⟩ := ih m₁ o₁ fs₁ h₁
    refine ⟨m', o', fs', ?_, hle.trans hle', h'⟩
    simp only [fetch, hcall, hfetch, Option.map_some, hserved, htok]

/-! ### What `served` says -/

theorem served_length : ∀ (k o : Nat) (fs : List (List UInt8)), (served k o fs).length = k
  | 0, _, _ => rfl
  | k + 1, o, [] => congrArg (· + 1) (served_length k o [])
  | k + 1, o, [f] => congrArg (· + 1) (served_length k o [f])
  | k + 1, o, f :: g :: gs => congrArg (· + 1) (served_length k (o + f.length + 1) (g :: gs))

/-- As long as there are fields, they are returned in order. -/
theorem served_str : ∀ (k o : Nat) (fs : List (List UInt8)), k ≤ fs.length →
    (served k o fs).map Token.str = fs.take k
  | 0, _, _, _ => rfl
  | k + 1, o, [f], h => by
    obtain rfl : k = 0 := Nat.le_zero.mp (Nat.le_of_succ_le_succ h)
    rfl
  | k + 1, o, f :: g :: gs, h => by
    have ih := served_str k (o + f.length + 1) (g :: gs) (Nat.le_of_succ_le_succ h)
    show f :: (served k (o + f.length + 1) (g :: gs)).map Token.str = f :: (g :: gs).take k
    rw [ih]

/-- Past the last field the call before is repeated. -/
theorem served_again : ∀ (k o : Nat) (fs : List (List UInt8)), fs ≠ [] → fs.length < k →
    ∃ tok ∈ (served k o fs).drop fs.length,
      tok.ptr ∈ ((served k o fs).take fs.length).map Token.ptr
  | k + 1, o, [f], _, h => by
    cases k with
    | zero => exact absurd h (Nat.lt_irrefl 1)
    | succ k => exact ⟨⟨.buffer o, f⟩, List.mem_cons_self, List.mem_singleton_self _⟩
  | k + 1, o, f :: g :: gs, _, h => by
    obtain ⟨tok, hd, ht⟩ := served_again k (o + f.length + 1) (g :: gs) (List.cons_ne_nil g gs)
      (Nat.lt_of_succ_lt_succ h)
    exact ⟨tok, hd, List.mem_cons_of_mem _ ht⟩

/-- A single field stays where it is. -/
theorem served_single (k o : Nat) (f : List UInt8) :
    ∀ tok ∈ served k o [f], tok = ⟨.buffer o, f⟩ := by
  induction k with
  | zero => exact fun tok h => absurd h List.not_mem_nil
  | succ k ih =>
    intro tok h
    exact (List.mem_cons.mp h).elim id (ih tok)

theorem served_nil (k o : Nat) : ∀ tok ∈ served k o [], tok = ⟨.buffer o, []⟩ := by
  induction k with
  | zero => exact fun tok h => absurd h List.not_mem_nil
  | succ k ih =>
    intro tok h
    exact (List.mem_cons.mp h).elim id (ih tok)

theorem served_ge : ∀ (k o : Nat) (fs : List (List UInt8)), ∀ tok ∈ served k o fs,
    ∃ o', tok.ptr = .buffer o' ∧ o ≤ o'
  | k + 1, o, [], tok, h => by
    rw [served_nil (k + 1) o tok h]
    exact ⟨o, rfl, Nat.le_refl o⟩
  | k + 1, o, [f], tok, h => by
    rw [served_single (k + 1) o f tok h]
    exact ⟨o, rfl, Nat.le_refl o⟩
  | k + 1, o, f :: g :: gs, tok, h => by
    rcases List.mem_cons.mp h with he | hm
    · rw [he]
      exact ⟨o, rfl, Nat.le_refl o⟩
    · obtain ⟨o', hp, hle⟩ := served_ge k (o + f.length + 1) (g :: gs) tok hm
      exact ⟨o', hp, by omega⟩

/-! ## The calls for one line -/

/-- `prev` is at the program's image and has a NUL before it, as when it is NULL; or it
is at fields of an earlier line. -/
def Held (m : Mem) : Prop :=
  (∃ a, m.prev = .image a ∧ 0 ∈ m.image.drop a) ∨ ∃ o fs, 0 < o ∧ Holds m o fs

/-- Calls that go on in the image stay there. -/
theorem fetch_image : ∀ (k a : Nat) (m : Mem), m.prev = .image a → 0 ∈ m.image.drop a →
    ∃ ts m', fetch k m = some (ts, m') ∧ Held m' ∧ ∀ tok ∈ ts, ∃ a', tok.ptr = .image a' := by
  intro k
  induction k with
  | zero => exact fun a m hp h0 =>
      ⟨[], m, rfl, .inl ⟨a, hp, h0⟩, fun tok h => absurd h List.not_mem_nil⟩
  | succ k ih =>
    intro a m hp h0
    obtain ⟨r, hr, hrest⟩ := scan_some SPACE _ h0
    have hstep : ∃ m' a', strtok m NULL SPACE = some (.image a, m') ∧ m'.prev = .image a' ∧
        0 ∈ m'.image.drop a' := by
      have hs : scan SPACE (m.bytes (.image a)) = some r := hr
      have hq : (if NULL = NULL then m.prev else NULL) = .image a := (if_pos rfl).trans hp
      cases r with
      | none => exact ⟨m, a, strtok_scan hq hs, hp, h0⟩
      | some i =>
        refine ⟨_, a + (i + 1), strtok_scan hq hs, rfl, ?_⟩
        show 0 ∈ (m.image.set (a + i) 0).drop (a + (i + 1))
        rw [List.drop_set, if_pos (by omega), ← List.drop_drop]
        exact hrest i rfl
    obtain ⟨m₁, a₁, hcall, hp₁, h₁⟩ := hstep
    obtain ⟨ts, m', hfetch, hheld, hts⟩ := ih a₁ m₁ hp₁ h₁
    refine ⟨⟨.image a, m₁.str (.image a)⟩ :: ts, m', ?_, hheld, ?_⟩
    · simp only [fetch, hcall, hfetch, Option.map_some]
    · intro tok ht
      rcases List.mem_cons.mp ht with he | hm
      · exact ⟨a, by rw [he]⟩
      · exact hts tok hm

theorem Line.text_pair (l : Line) {f g : List UInt8} {gs : List (List UInt8)}
    (h : l.fields = f :: g :: gs) : l.text = f ++ SPACE :: [SPACE].intercalate (g :: gs) := by
  rw [Line.text, h, List.intercalate_cons_cons]
  simp

/-- A line of several fields is served right as long as it has fields. -/
theorem served_right (l : Line) (k : Nat) (hn : l.fields ≠ []) :
    l.Right (served k 0 l.fields) ↔ k ≤ l.fields.length := by
  constructor
  · intro h
    by_contra hk
    obtain ⟨tok, hd, ht⟩ := served_again k 0 l.fields hn (by omega)
    exact (h.further tok hd).1 ht
  · intro hk
    constructor
    · rw [List.take_of_length_le (by rwa [served_length]), served_length]
      exact served_str k 0 l.fields hk
    · intro tok ht
      rw [List.drop_eq_nil_of_le (by rwa [served_length])] at ht
      exact absurd ht List.not_mem_nil

/-- The fields `strtok` goes on at are stale exactly when there are some and they lie
behind the line. -/
theorem Holds.stale (h : Holds m o fs) (l : Line) :
    l.Stale m ↔ l.text.length < o ∧ fs ≠ [] := by
  obtain ⟨rest, hb⟩ := h.bytes
  have hbyte : m.buffer[o]? = ([SPACE].intercalate fs ++ 0 :: rest).head? := by
    rw [← hb, List.head?_drop]
  constructor
  · intro hs
    obtain ⟨o', b, hp, hlt, hget, hne⟩ := hs
    rw [h.prev] at hp
    cases hp
    refine ⟨hlt, fun hnil => ?_⟩
    rw [hbyte, hnil] at hget
    exact hne (Option.some.inj hget).symm
  · intro hs
    obtain ⟨hlt, hne⟩ := hs
    match fs, h, hbyte, hne with
    | f :: gs, h, hbyte, _ =>
      have hf := h.fields f List.mem_cons_self
      obtain ⟨b, f', rfl⟩ := List.exists_cons_of_ne_nil hf.1
      refine ⟨o, b, h.prev, hlt, ?_, (hf.2 b List.mem_cons_self).1⟩
      rw [hbyte]
      cases gs <;> simp [List.intercalate_cons_cons]

/-- What is asked for behind the only field of a line. -/
theorem word_right (l : Line) {f : List UInt8} (hl : l.fields = [f]) (k : Nat) (h : Holds m o fs)
    (h0 : 0 < o) (hin : o ≤ l.text.length → fs.length ≤ 1) :
    l.Right (⟨.buffer 0, f⟩ :: served k o fs) ↔ k = 0 ∨ ¬ l.Stale m := by
  have hfields : ((⟨.buffer 0, f⟩ :: served k o fs).take l.fields.length).map Token.str =
      l.fields.take (⟨.buffer 0, f⟩ :: served k o fs : List Token).length := by
    rw [hl]
    simp
  rw [h.stale l]
  constructor
  · intro hr
    by_contra hc
    obtain ⟨hk, hlt, hne⟩ : k ≠ 0 ∧ l.text.length < o ∧ fs ≠ [] := by
      simpa [not_or] using hc
    obtain ⟨j, rfl⟩ := Nat.exists_eq_succ_of_ne_zero hk
    obtain ⟨g, gs, rfl⟩ := List.exists_cons_of_ne_nil hne
    have hg := h.fields g List.mem_cons_self
    have hfirst : ⟨.buffer o, g⟩ ∈ (⟨.buffer 0, f⟩ :: served (j + 1) o (g :: gs)).drop l.fields.length := by
      rw [hl]
      cases gs <;> exact List.mem_cons_self
    exact (hr.further _ hfirst).2 ⟨o, rfl, hlt, hg.1⟩
  · intro hc
    refine ⟨hfields, fun tok ht => ?_⟩
    have ht' : tok ∈ served k o fs := by
      rw [hl] at ht
      exact ht
    obtain ⟨o', hp, hle⟩ := served_ge k o fs tok ht'
    constructor
    · rw [hl, hp]
      simp
      omega
    · intro hleft
      obtain ⟨o₂, hp₂, hlt, hne⟩ := hleft
      rcases hc with hk | hc
      · rw [hk] at ht'
        exact absurd ht' List.not_mem_nil
      · match fs, hin, hc, ht' with
        | [], _, _, ht' =>
          rw [served_nil k o tok ht'] at hne
          exact hne rfl
        | [g], _, hc, ht' =>
          rw [served_single k o g tok ht'] at hp₂
          cases hp₂
          exact hc ⟨hlt, List.cons_ne_nil g []⟩
        | g :: g' :: gs, hin, hc, _ =>
          have hlt' : ¬ l.text.length < o := fun hlt => hc ⟨hlt, List.cons_ne_nil g _⟩
          have := hin (by omega)
          simp at this

/-- `Held` with the line that is in the buffer: text within the line has no separator. -/
def Line.Kept (l : Line) (m : Mem) : Prop :=
  (∃ a, m.prev = .image a ∧ 0 ∈ m.image.drop a) ∨
    ∃ o fs, 0 < o ∧ Holds m o fs ∧ (o ≤ l.text.length → fs.length ≤ 1)

/-- An empty line: its only token is the empty string. -/
theorem command_empty (l : Line) {rest : List UInt8} (hl : l.fields = [])
    (hb : m.buffer = l.text ++ 0 :: rest) (hk : l.Kept m) :
    ∃ toks m', command m = some (toks, m', curIns []) ∧ Held m' ∧ (l.Right toks ↔ l.Served m) := by
  have hq : (if Ptr.buffer 0 = NULL then m.prev else Ptr.buffer 0) = Ptr.buffer 0 := if_neg (by decide)
  have hb' : m.buffer.drop 0 = [] ++ 0 :: rest := by
    rw [List.drop_zero, hb, Line.text, hl]
    rfl
  have hs : m.str (.buffer 0) = [] := str_nul (fun b hm => absurd hm List.not_mem_nil) hb'
  have hcall := strtok_nul hq hb' (fun b hm => absurd hm List.not_mem_nil)
  have hheld : Held m := hk.imp id (fun ⟨o, fs, h0, h, _⟩ => ⟨o, fs, h0, h⟩)
  refine ⟨[⟨.buffer 0, []⟩], m, ?_, hheld, iff_of_true ⟨?_, fun tok ht => ?_⟩ ?_⟩
  · simp only [command, hcall, hs]
    rfl
  · simp [hl]
  · rw [hl] at ht
    rw [List.mem_singleton.mp ht, hl]
    refine ⟨List.not_mem_nil, fun hleft => ?_⟩
    obtain ⟨o, -, -, hne⟩ := hleft
    exact hne rfl
  · refine .inr ⟨by simp [hl], .inl ?_⟩
    rw [Line.calls, hl]
    decide

/-- A line of one word does not move `prev`: a further call goes on where it was. -/
theorem command_word (l : Line) {f rest : List UInt8} (hl : l.fields = [f])
    (hb : m.buffer = l.text ++ 0 :: rest) (hk : l.Kept m) :
    ∃ toks m', command m = some (toks, m', curIns f) ∧ Held m' ∧ (l.Right toks ↔ l.Served m) := by
  have hq : (if Ptr.buffer 0 = NULL then m.prev else Ptr.buffer 0) = Ptr.buffer 0 := if_neg (by decide)
  have hf : Field f := l.ok f (by simp [hl])
  have hb' : m.buffer.drop 0 = f ++ 0 :: rest := by
    rw [List.drop_zero, hb, Line.text, hl]
    simp
  have hs : m.str (.buffer 0) = f := str_nul (fun b hm => (hf.clean b hm).1) hb'
  have hcall := strtok_nul hq hb' hf.clean
  have hcommand : ∀ ts m', fetch (fetches (curIns f)) m = some (ts, m') →
      command m = some (⟨.buffer 0, f⟩ :: ts, m', curIns f) := by
    intro ts m' hfetch
    simp only [command, hcall, hs, hfetch, Option.map_some]
  have hserved : l.Served m ↔ fetches (curIns f) = 0 ∨ ¬ l.Stale m := by
    rw [Line.Served, Line.calls, hl]
    show 1 + fetches (curIns f) ≤ 1 ∨ 1 ≤ 1 ∧ (1 + fetches (curIns f) ≤ 1 ∨ _) ↔ _
    have hz : 1 + fetches (curIns f) ≤ 1 ↔ fetches (curIns f) = 0 := by omega
    rw [hz]
    tauto
  rw [hserved]
  rcases hk with ⟨a, hp, h0⟩ | ⟨o, fs, h0, hh, hin⟩
  · -- `prev` is NULL, or where calls from NULL have left it
    obtain ⟨ts, m', hfetch, hheld, hts⟩ := fetch_image (fetches (curIns f)) a m hp h0
    refine ⟨_, m', hcommand ts m' hfetch, hheld, iff_of_true ⟨?_, fun tok ht => ?_⟩ ?_⟩
    · simp [hl]
    · have ht' : tok ∈ ts := by
        rw [hl] at ht
        exact ht
      obtain ⟨a', ha⟩ := hts tok ht'
      refine ⟨?_, fun hleft => ?_⟩
      · rw [ha, hl]
        simp
      · obtain ⟨o, hp', -⟩ := hleft
        rw [ha] at hp'
        cases hp'
    · refine .inr (fun hstale => ?_)
      obtain ⟨o, b, hp', -⟩ := hstale
      rw [hp] at hp'
      cases hp'
  · obtain ⟨m', o', fs', hfetch, hle, h'⟩ := fetch_served (fetches (curIns f)) m o fs hh
    exact ⟨_, m', hcommand _ m' hfetch, .inr ⟨o', fs', by omega, h'⟩, word_right l hl _ hh h0 hin⟩

/-- In a line of several fields the first call sets `prev` to the second. -/
theorem command_fields (l : Line) {f g rest : List UInt8} {gs : List (List UInt8)}
    (hl : l.fields = f :: g :: gs) (hb : m.buffer = l.text ++ 0 :: rest) :
    ∃ toks m', command m = some (toks, m', curIns f) ∧ Held m' ∧ (l.Right toks ↔ l.Served m) := by
  have hq : (if Ptr.buffer 0 = NULL then m.prev else Ptr.buffer 0) = Ptr.buffer 0 := if_neg (by decide)
  have hf : Field f := l.ok f (by simp [hl])
  have hb' : m.buffer.drop 0 = f ++ SPACE :: ([SPACE].intercalate (g :: gs) ++ 0 :: rest) := by
    rw [List.drop_zero, hb, l.text_pair hl]
    simp
  obtain ⟨m₁, hcall, hprev, hdrop⟩ := strtok_sep hq hb' hf.clean
  have hs : m₁.str (.buffer 0) = f := str_nul (fun b hm => (hf.clean b hm).1) hdrop
  have h₁ : Holds m₁ (0 + f.length + 1) (g :: gs) := by
    refine ⟨hprev, fun x hx => l.ok x (by rw [hl]; exact List.mem_cons_of_mem f hx), rest, ?_⟩
    rw [Nat.add_assoc, ← List.drop_drop, hdrop]
    simp
  obtain ⟨m', o', fs', hfetch, hle, h'⟩ := fetch_served (fetches (curIns f)) m₁ _ _ h₁
  refine ⟨served (fetches (curIns f) + 1) 0 l.fields, m', ?_, .inr ⟨o', fs', by omega, h'⟩, ?_⟩
  · simp only [command, hcall, hs, hfetch, Option.map_some, hl]
    rfl
  · rw [served_right l _ (by simp [hl]), Line.Served, Line.calls, hl]
    show fetches (curIns f) + 1 ≤ (f :: g :: gs).length ↔
      1 + fetches (curIns f) ≤ (f :: g :: gs).length ∨ (f :: g :: gs).length ≤ 1 ∧ _
    have hlen : ¬ (f :: g :: gs).length ≤ 1 := by simp
    rw [Nat.add_comm]
    exact ⟨.inl, fun h => h.resolve_right (fun hr => hlen hr.1)⟩

/-- The calls for a line return, and are right exactly when the line is served. -/
theorem command_served (l : Line) {rest : List UInt8} (hb : m.buffer = l.text ++ 0 :: rest)
    (hk : l.fields.length ≤ 1 → l.Kept m) :
    ∃ toks m', command m = some (toks, m', curIns (l.fields.headD [])) ∧ Held m' ∧
      (l.Right toks ↔ l.Served m) := by
  match hl : l.fields with
  | [] => exact command_empty l hl hb (hk (by simp [hl]))
  | [f] => exact command_word l hl hb (hk (by simp [hl]))
  | f :: g :: gs => exact command_fields l hl hb

end Calls

/-! ## Reading a line into the buffer -/

section Reading

variable {m : Mem} {o : Nat} {w t : List UInt8} {fs : List (List UInt8)}

/-- A newline can only be the last byte that `gets` stores. -/
theorem readLine_newline : ∀ (n : Nat) (input : List UInt8),
    (readLine n input).1 = (readLine n input).1.takeWhile (fun c => c != NEWLINE) ∨
      (readLine n input).1 = (readLine n input).1.takeWhile (fun c => c != NEWLINE) ++ [NEWLINE]
  | 0, _ => .inl rfl
  | _ + 1, [] => .inl rfl
  | n + 1, c :: input => by
    by_cases hc : c = NEWLINE ∨ c = RETURN
    · have hr : readLine (n + 1) (c :: input) = ([c], input) := if_pos hc
      rw [hr]
      rcases hc with rfl | rfl
      · exact .inr rfl
      · exact .inl rfl
    · have hr : (readLine (n + 1) (c :: input)).1 = c :: (readLine n input).1 :=
        congrArg Prod.fst (if_neg hc)
      have hne : (c != NEWLINE) = true := bne_iff_ne.mpr (fun he => hc (.inl he))
      rw [hr, List.takeWhile_cons_of_pos (p := fun c => c != NEWLINE) hne, List.cons_append]
      exact (readLine_newline n input).imp (congrArg _) (congrArg _)

theorem chop_append : ∀ w : List UInt8, (∀ b ∈ w, b ≠ NEWLINE) → chop (w ++ t) = w ++ chop t
  | [], _ => rfl
  | b :: w, h => by
    obtain ⟨hb, hw⟩ := List.forall_mem_cons.mp h
    show (if b = NEWLINE then _ else b :: chop (w ++ t)) = _
    rw [if_neg hb, chop_append w hw]
    rfl

/-- `chop` changes at most one byte. -/
theorem chop_drop : ∀ (j : Nat) (t : List UInt8),
    (chop t).drop j = chop (t.drop j) ∨ (chop t).drop j = t.drop j
  | 0, _ => .inl rfl
  | j + 1, [] => .inr rfl
  | j + 1, c :: t => by
    by_cases hc : c = NEWLINE
    · have hr : chop (c :: t) = 0 :: t := if_pos hc
      rw [hr]
      exact .inr rfl
    · have hr : chop (c :: t) = c :: chop t := if_neg hc
      rw [hr]
      exact chop_drop j t

theorem join_mem {b : UInt8} : ∀ fs : List (List UInt8), b ∈ [SPACE].intercalate fs →
    b = SPACE ∨ ∃ f ∈ fs, b ∈ f
  | [], h => absurd h (by simp)
  | [f], h => .inr ⟨f, List.mem_singleton_self f, by simpa using h⟩
  | f :: g :: gs, h => by
    rw [List.intercalate_cons_cons] at h
    simp only [List.mem_append, List.mem_singleton] at h
    rcases h with (hf | hs) | hg
    · exact .inr ⟨f, List.mem_cons_self, hf⟩
    · exact .inl hs
    · exact (join_mem (g :: gs) hg).imp id (fun ⟨x, hx, hbx⟩ => ⟨x, List.mem_cons_of_mem f hx, hbx⟩)

theorem join_newline (h : ∀ f ∈ fs, Field f) : ∀ b ∈ [SPACE].intercalate fs, b ≠ NEWLINE := by
  intro b hb
  rcases join_mem fs hb with rfl | ⟨f, hf, hbf⟩
  · decide
  · exact ((h f hf).2 b hbf).2.2

/-- What `main` finds in the buffer: the line, its NUL, and behind that the old text,
with a second NUL at its front if a newline was read. -/
theorem chop_line (l : Line) (old : List UInt8) {cs : List UInt8}
    (h : cs = l.text ∨ cs = l.text ++ [NEWLINE]) :
    ∃ tail, chop (cs ++ 0 :: old.drop (cs.length + 1)) = l.text ++ 0 :: tail ∧
      (tail = chop (old.drop (l.text.length + 1)) ∨ tail = 0 :: old.drop (l.text.length + 2)) := by
  have hw : ∀ b ∈ l.text, b ≠ NEWLINE := join_newline l.ok
  rcases h with rfl | rfl
  · refine ⟨_, ?_, .inl rfl⟩
    rw [chop_append l.text hw]
    rfl
  · refine ⟨_, ?_, .inr rfl⟩
    rw [List.append_assoc, chop_append l.text hw, List.length_append]
    rfl

/-- Fields behind the line stay where they are, unless the second NUL hides them. -/
theorem tail_fields {n : Nat} {old tail r : List UInt8}
    (h : tail = chop (old.drop (n + 1)) ∨ tail = 0 :: old.drop (n + 2)) (hlt : n < o)
    (hfs : ∀ f ∈ fs, Field f) (hold : old.drop o = [SPACE].intercalate fs ++ 0 :: r) :
    ∃ fs' r', (fs' = fs ∨ fs' = []) ∧
      tail.drop (o - (n + 1)) = [SPACE].intercalate fs' ++ 0 :: r' := by
  obtain ⟨j, rfl⟩ : ∃ j, o = n + 1 + j := ⟨o - (n + 1), by omega⟩
  rw [Nat.add_sub_cancel_left]
  rcases h with rfl | rfl
  · have hdrop : (old.drop (n + 1)).drop j = [SPACE].intercalate fs ++ 0 :: r := by
      rw [List.drop_drop, hold]
    rcases chop_drop j (old.drop (n + 1)) with he | he
    · refine ⟨fs, chop r, .inl rfl, ?_⟩
      rw [he, hdrop, chop_append _ (join_newline hfs)]
      rfl
    · exact ⟨fs, r, .inl rfl, by rw [he, hdrop]⟩
  · cases j with
    | zero => exact ⟨[], old.drop (n + 2), .inr rfl, rfl⟩
    | succ j =>
      refine ⟨fs, r, .inl rfl, ?_⟩
      show (old.drop (n + 2)).drop j = _
      rw [List.drop_drop, ← hold]
      congr 1
      omega

/-- A line of at most one word read over what `strtok` holds. -/
theorem Held.read (h : Held m) (l : Line) (hl : l.fields.length ≤ 1) {tail : List UInt8}
    (htail : tail = chop (m.buffer.drop (l.text.length + 1)) ∨
      tail = 0 :: m.buffer.drop (l.text.length + 2)) :
    l.Kept { m with buffer := l.text ++ 0 :: tail } := by
  rcases h with ⟨a, hp, h0⟩ | ⟨o, fs, h0, hh⟩
  · exact .inl ⟨a, hp, h0⟩
  · right
    by_cases hlt : l.text.length < o
    · obtain ⟨rest, hb⟩ := hh.bytes
      obtain ⟨fs', r', hfs', hdrop⟩ := tail_fields htail hlt hh.fields hb
      refine ⟨o, fs', h0, ⟨hh.prev, ?_, r', ?_⟩, fun hle => absurd hlt (by omega)⟩
      · rcases hfs' with rfl | rfl
        · exact hh.fields
        · exact fun f hf => absurd hf List.not_mem_nil
      · show (l.text ++ 0 :: tail).drop o = _
        rw [List.drop_append, List.drop_eq_nil_of_le (by omega), List.nil_append, ← hdrop]
        obtain ⟨j, rfl⟩ : ∃ j, o = l.text.length + 1 + j := ⟨o - (l.text.length + 1), by omega⟩
        rw [Nat.add_sub_cancel_left, Nat.add_assoc, Nat.add_sub_cancel_left, Nat.add_comm 1 j]
        rfl
    · -- within the line: the rest of its word
      have hword : ∃ fs' : List (List UInt8), fs'.length ≤ 1 ∧ (∀ f ∈ fs', Field f) ∧
          l.text.drop o = [SPACE].intercalate fs' := by
        match hf : l.fields with
        | [] => exact ⟨[], Nat.zero_le 1, fun f hf => absurd hf List.not_mem_nil, by simp [Line.text, hf]⟩
        | [f] =>
          have htext : l.text = f := by simp [Line.text, hf]
          have hfield := l.ok f (by simp [hf])
          by_cases hend : f.drop o = []
          · exact ⟨[], Nat.zero_le 1, fun f hf => absurd hf List.not_mem_nil, by simp [htext, hend]⟩
          · refine ⟨[f.drop o], Nat.le_refl 1, fun x hx => ?_, by simp [htext]⟩
            rw [List.mem_singleton.mp hx]
            exact ⟨hend, fun b hb => hfield.2 b (List.mem_of_mem_drop hb)⟩
        | f :: g :: gs => simp [hf] at hl
      obtain ⟨fs', hone, hfs', hdrop⟩ := hword
      refine ⟨o, fs', h0, ⟨hh.prev, hfs', tail, ?_⟩, fun _ => hone⟩
      show (l.text ++ 0 :: tail).drop o = _
      rw [List.drop_append_of_le_length (by omega), hdrop]

end Reading

/-! ## The loop of main -/

theorem main_cons (n : Nat) (m : Mem) (input : List UInt8) : main (n + 1) m input =
    match command { m with buffer := chop (gets m.buffer BUFFER_SIZE input).1 } with
    | none => none
    | some (tokens, m', ins) =>
      if ins = some .EXIT then
        some [⟨{ m with buffer := chop (gets m.buffer BUFFER_SIZE input).1 }, tokens⟩]
      else (main n m' (gets m.buffer BUFFER_SIZE input).2).map (fun ts =>
        ⟨{ m with buffer := chop (gets m.buffer BUFFER_SIZE input).1 }, tokens⟩ :: ts) := rfl

theorem Held.main : ∀ (ls : List Line) (m : Mem) (input : List UInt8), Held m →
    delivered ls.length input = ls.map Line.text →
    ∃ ts, main ls.length m input = some ts ∧
      List.Forall₂ (fun t l => l.Right t.tokens ↔ l.Served t.before) ts (untilExit ls) := by
  intro ls
  induction ls with
  | nil => exact fun m input _ _ => ⟨[], rfl, .nil⟩
  | cons l ls ih =>
    intro m input h hd
    obtain ⟨hline, hrest⟩ := List.cons.inj hd
    have hread := readLine_newline (BUFFER_SIZE - 1) input
    rw [hline] at hread
    obtain ⟨tail, hchop, htail⟩ := chop_line l m.buffer hread
    have hbuf : chop (gets m.buffer BUFFER_SIZE input).1 = l.text ++ 0 :: tail := hchop
    obtain ⟨toks, m', hcommand, hheld, hiff⟩ :=
      command_served (m := { m with buffer := l.text ++ 0 :: tail }) l rfl (fun hl => h.read l hl htail)
    rw [List.length_cons, main_cons, hbuf, hcommand]
    by_cases hexit : curIns (l.fields.headD []) = some .EXIT
    · refine ⟨_, if_pos hexit, ?_⟩
      rw [untilExit, if_pos hexit]
      exact .cons hiff .nil
    · obtain ⟨ts, hts, hall⟩ := ih m' (gets m.buffer BUFFER_SIZE input).2 hheld hrest
      refine ⟨⟨{ m with buffer := l.text ++ 0 :: tail }, toks⟩ :: ts, ?_, ?_⟩
      · show (if _ then _ else _) = _
        rw [if_neg hexit, hts]
        rfl
      · rw [untilExit, if_neg hexit]
        exact .cons hiff hall

/-- For every input whose lines are fields separated by single spaces: the calls of
`strtok` return, and the tokens of a line are right exactly when the line is served.
The program is loaded at address 0, where `strtok` reads while `prev` is NULL; its
image has a NUL in it. -/
theorem tokens_right_iff (image buffer input : List UInt8) (ls : List Line) (h0 : 0 ∈ image)
    (hd : delivered ls.length input = ls.map Line.text) :
    ∃ ts, main ls.length ⟨image, buffer, NULL⟩ input = some ts ∧
      List.Forall₂ (fun t l => l.Right t.tokens ↔ l.Served t.before) ts (untilExit ls) :=
  Held.main ls ⟨image, buffer, NULL⟩ input (.inl ⟨0, rfl, h0⟩) hd

/-- Lines as they are typed. -/
def typed (ls : List Line) : List UInt8 := ls.flatMap (fun l => l.text ++ [NEWLINE])

theorem readLine_typed {t : List UInt8} : ∀ (n : Nat) (w : List UInt8), w.length < n →
    (∀ b ∈ w, b ≠ NEWLINE ∧ b ≠ RETURN) →
    readLine n (w ++ NEWLINE :: t) = (w ++ [NEWLINE], t)
  | n + 1, [], _, _ => if_pos (.inl rfl)
  | n + 1, b :: w, hlen, h => by
    obtain ⟨hb, hw⟩ := List.forall_mem_cons.mp h
    have ih := readLine_typed (t := t) n w (Nat.lt_of_succ_lt_succ hlen) hw
    show (if b = NEWLINE ∨ b = RETURN then _ else
      (b :: (readLine n (w ++ NEWLINE :: t)).1, (readLine n (w ++ NEWLINE :: t)).2)) = _
    rw [if_neg (not_or.mpr hb), ih]
    rfl

/-- Lines that fit into the buffer are delivered as they are typed. -/
theorem delivered_typed : ∀ ls : List Line,
    (∀ l ∈ ls, l.text.length + 1 < BUFFER_SIZE ∧ ∀ b ∈ l.text, b ≠ RETURN) →
    delivered ls.length (typed ls) = ls.map Line.text
  | [], _ => rfl
  | l :: ls, h => by
    obtain ⟨⟨hlen, hret⟩, hls⟩ := List.forall_mem_cons.mp h
    have hw : ∀ b ∈ l.text, b ≠ NEWLINE := join_newline l.ok
    have hread : readLine (BUFFER_SIZE - 1) (typed (l :: ls)) = (l.text ++ [NEWLINE], typed ls) := by
      have htyped : typed (l :: ls) = l.text ++ NEWLINE :: typed ls := by
        simp [typed]
      rw [htyped]
      exact readLine_typed _ _ (by omega) (fun b hb => ⟨hw b hb, hret b hb⟩)
    have htake : (l.text ++ [NEWLINE]).takeWhile (fun c => c != NEWLINE) = l.text := by
      rw [List.takeWhile_append_of_pos (fun b hb => bne_iff_ne.mpr (hw b hb))]
      simp
    show (readLine (BUFFER_SIZE - 1) (typed (l :: ls))).1.takeWhile _ ::
      delivered ls.length (readLine (BUFFER_SIZE - 1) (typed (l :: ls))).2 = _
    rw [hread, htake, delivered_typed ls hls]
    rfl

/-- `memlim 3` without a limit, then `kill` without a pid. -/
def shortCommands : List Line :=
  [⟨[ascii ['m', 'e', 'm', 'l', 'i', 'm'], ascii ['3']], by decide +kernel⟩,
    ⟨[ascii ['k', 'i', 'l', 'l']], by decide +kernel⟩]

theorem tokens_right_iff_shortCommands : ∃ ts,
    main 2 ⟨[0], List.replicate BUFFER_SIZE 0, NULL⟩ (typed shortCommands) = some ts ∧
      List.Forall₂ (fun t l => l.Right t.tokens ↔ l.Served t.before) ts (untilExit shortCommands) := by
  apply tokens_right_iff [0] (List.replicate BUFFER_SIZE 0) (typed shortCommands) shortCommands
  · exact List.mem_singleton_self 0
  · apply delivered_typed
    decide +kernel

/-- The limit is set to 3, and process 3 is killed. -/
theorem missing_arguments_are_stale :
    delivered 2 (typed shortCommands) = shortCommands.map Line.text ∧
    ∃ t₁ t₂, main 2 ⟨[0], List.replicate BUFFER_SIZE 0, NULL⟩ (typed shortCommands) = some [t₁, t₂] ∧
      t₁.tokens.map Token.str = [ascii ['m', 'e', 'm', 'l', 'i', 'm'], ascii ['3'], ascii ['3']] ∧
      t₂.tokens.map Token.str = [ascii ['k', 'i', 'l', 'l'], ascii ['3']] ∧
      ¬ List.Forall₂ (fun t l => l.Right t.tokens) [t₁, t₂] shortCommands := by
  refine ⟨by decide +kernel, _, _, rfl, by decide +kernel, by decide +kernel, fun h => ?_⟩
  cases h with
  | cons h₁ _ =>
    -- the third token is the second again
    exact (h₁.further ⟨.buffer 7, ascii ['3']⟩ (by decide +kernel)).1 (by decide +kernel)

end Xv6.User

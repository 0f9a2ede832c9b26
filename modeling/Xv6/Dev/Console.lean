import Xv6.Lib.Ring
import Xv6.Lib.Run

/- Console input (`console.c`, the same file in the three kernels), for any number of
   processes that read from the console.

   The keys go into a ring of 128 slots with three counters that wrap around: `r` for the
   readers, `w` for the end of what they may read, and `e` for the line that is still
   edited. An interrupt takes all keys that there are, and a reader goes on until it is
   done or sleeps; both hold `cons.lock`, and each of the two is a step. `kill` takes
   another lock: on another CPU it can come between the reader's test of `killed` and its
   `sleep`, and then the reader sleeps although it is killed.

   The same processes are put around two inputs: the ring of the code, and a pair of lists
   (`Editor`), which says what the ring is for. What is proved: a run of the code is a run
   of the editor with the same results, whatever the counters (`console_refines`); and in
   every state what is on the screen is what was read, then what can be read, then the line
   that is edited; nobody sleeps while there is something to read, nor while it is killed,
   but for such a late `kill`; and a read returns at most one line (`console_sound`). -/
namespace Xv6.Dev

open Lib.Ring (Holds slot)

abbrev INPUT_BUF : Nat := 128

/-- `C('P')`, `C('U')`, `C('H')`, `C('D')`, and the keys with a name. -/
def ctrlP : UInt8 := 16
def ctrlU : UInt8 := 21
def ctrlH : UInt8 := 8
def ctrlD : UInt8 := 4
def del : UInt8 := 127
def cr : UInt8 := 13
def nl : UInt8 := 10

/-- `input`. -/
structure Input where
  buf : Fin INPUT_BUF → UInt8
  r : UInt32
  w : UInt32
  e : UInt32

/-- What `consputc` gets: a character, or `BACKSPACE`. -/
inductive Echo where
  | char (c : UInt8)
  | backspace
  deriving DecidableEq, Repr

/-- The loop of `C('U')`, with the number of its `BACKSPACE`s. There are no more than
`INPUT_BUF` rounds. -/
def killLine : Nat → Input → Input × Nat
  | 0, i => (i, 0)
  | k + 1, i =>
    if i.e ≠ i.w ∧ i.buf (slot INPUT_BUF (i.e - 1)) ≠ nl then
      let (i', m) := killLine k { i with e := i.e - 1 }
      (i', m + 1)
    else (i, 0)

/-- One round of the loop of `consoleintr`: whether it wakes up the readers, and what it
prints. The process listing is left out. -/
def consoleintr (i : Input) (c : UInt8) : Input × Bool × List Echo :=
  if c = ctrlP then (i, false, [])
  else if c = ctrlU then
    let (i', m) := killLine INPUT_BUF i
    (i', false, List.replicate m .backspace)
  else if c = ctrlH ∨ c = del then
    if i.e ≠ i.w then ({ i with e := i.e - 1 }, false, [.backspace]) else (i, false, [])
  else if c ≠ 0 ∧ i.e - i.r < UInt32.ofNat INPUT_BUF then
    let c := if c = cr then nl else c
    let i' := { i with buf := Function.update i.buf (slot INPUT_BUF i.e) c, e := i.e + 1 }
    if c = nl ∨ c = ctrlD ∨ i'.e = i'.r + UInt32.ofNat INPUT_BUF then
      ({ i' with w := i'.e }, true, [.char c])
    else (i', false, [.char c])
  else (i, false, [])

/-- How a section of `consoleread` ends: with a `C('D')` that was taken, or not; killed; or
asleep with `n` bytes to go. -/
inductive Stop where
  | done (eof : Bool)
  | failed
  | sleeps (n : Nat)
  deriving DecidableEq, Repr

/-- The loop of `consoleread`, with `n` of `target` bytes to go, and the bytes that it
copies. -/
def consoleread (killed : Bool) (target : Nat) : Nat → Input → Input × List UInt8 × Stop
  | 0, i => (i, [], .done false)
  | n + 1, i =>
    if i.r = i.w then (i, [], if killed then .failed else .sleeps (n + 1))
    else
      let c := i.buf (slot INPUT_BUF i.r)
      let i' := { i with r := i.r + 1 }
      if c = ctrlD then
        if n + 1 < target then ({ i' with r := i'.r - 1 }, [], .done false) else (i', [], .done true)
      else if c = nl then (i', [c], .done false)
      else
        let (i'', bs, e) := consoleread killed target n i'
        (i'', c :: bs, e)

/-! ## The line editor -/

/-- What the input is for: bytes that can be read, and a line that is edited. -/
structure Editor where
  ready : List UInt8
  line : List UInt8

def Editor.key (ed : Editor) (c : UInt8) : Editor × Bool × List Echo :=
  if c = ctrlP then (ed, false, [])
  else if c = ctrlU then ({ ed with line := [] }, false, List.replicate ed.line.length .backspace)
  else if c = ctrlH ∨ c = del then
    if ed.line ≠ [] then ({ ed with line := ed.line.dropLast }, false, [.backspace]) else (ed, false, [])
  else if c ≠ 0 ∧ ed.ready.length + ed.line.length < INPUT_BUF then
    let c := if c = cr then nl else c
    if c = nl ∨ c = ctrlD ∨ ed.ready.length + ed.line.length + 1 = INPUT_BUF then
      ({ ready := ed.ready ++ ed.line ++ [c], line := [] }, true, [.char c])
    else ({ ed with line := ed.line ++ [c] }, false, [.char c])
  else (ed, false, [])

def readLine (killed : Bool) (target : Nat) : Nat → List UInt8 → List UInt8 × List UInt8 × Stop
  | 0, ready => (ready, [], .done false)
  | n + 1, [] => ([], [], if killed then .failed else .sleeps (n + 1))
  | n + 1, c :: ready =>
    if c = ctrlD then if n + 1 < target then (c :: ready, [], .done false) else (ready, [], .done true)
    else if c = nl then (ready, [c], .done false)
    else
      let (ready', bs, e) := readLine killed target n ready
      (ready', c :: bs, e)

def Editor.read (killed : Bool) (target n : Nat) (ed : Editor) : Editor × List UInt8 × Stop :=
  let (ready, bs, e) := readLine killed target n ed.ready
  ({ ed with ready := ready }, bs, e)

/-! ## The processes -/

/-- A process in `consoleread` has `n` of `target` bytes to go. `dst` is what its last call
has copied, `received` is what all calls have taken, in order. -/
structure Console (I P : Type) where
  input : I
  call : P → Option (Nat × Nat)
  asleep : P → Bool
  killed : P → Bool
  dst : P → List UInt8
  ret : P → Int
  echo : List Echo
  received : List UInt8

/-- With `late`, `p` is killed between its last test of `killed` in the section and the end
of the section. -/
inductive ConsAct (P : Type) where
  | intr (keys : List UInt8)
  | read (p : P) (n : Nat) (late : Bool)
  | resume (p : P) (late : Bool)
  | kill (p : P)
  deriving DecidableEq

namespace Console

variable {I P : Type} [DecidableEq P]

def boot (input : I) : Console I P where
  input := input
  call := fun _ => none
  asleep := fun _ => false
  killed := fun _ => false
  dst := fun _ => []
  ret := fun _ => 0
  echo := []
  received := []

def key (intr : I → UInt8 → I × Bool × List Echo) (s : Console I P) (c : UInt8) : Console I P :=
  let (input, wakes, out) := intr s.input c
  { s with input := input, asleep := if wakes then fun _ => false else s.asleep, echo := s.echo ++ out }

/-- A section of `consoleread` by `p`. -/
def readSection (read : Bool → Nat → Nat → I → I × List UInt8 × Stop) (s : Console I P) (p : P)
    (target n : Nat) : Console I P :=
  match read (s.killed p) target n s.input with
  | (input, bs, e) =>
    let s' := { s with input := input, dst := Function.update s.dst p (s.dst p ++ bs) }
    match e with
    | .done eof =>
      { s' with call := Function.update s.call p none
                ret := Function.update s.ret p (target - (n - bs.length : Nat))
                received := s.received ++ bs ++ if eof then [ctrlD] else [] }
    | .failed =>
      { s' with call := Function.update s.call p none, ret := Function.update s.ret p (-1)
                received := s.received ++ bs }
    | .sleeps n =>
      { s' with call := Function.update s.call p (some (n, target)), asleep := Function.update s.asleep p true
                received := s.received ++ bs }

/-- `kill` of a process that does not sleep yet. -/
def killRunning (s : Console I P) (p : P) (late : Bool) : Console I P :=
  if late then { s with killed := Function.update s.killed p true } else s

/-- The processes around an input. -/
def step (intr : I → UInt8 → I × Bool × List Echo) (read : Bool → Nat → Nat → I → I × List UInt8 × Stop)
    (s : Console I P) : ConsAct P → Option (Console I P)
  | .intr keys => some (keys.foldl (key intr) s)
  | .read p n late =>
    if s.call p = none then
      some (({ s with dst := Function.update s.dst p [] }.readSection read p n n).killRunning p late)
    else none
  | .resume p late =>
    if s.asleep p = false then
      match s.call p with
      | some (n, target) => some ((s.readSection read p target n).killRunning p late)
      | none => none
    else none
  | .kill p =>
    some { s with killed := Function.update s.killed p true, asleep := Function.update s.asleep p false }

end Console

section Machine

variable {P : Type} [DecidableEq P]

def consoleStep : Console Input P → ConsAct P → Option (Console Input P) :=
  Console.step consoleintr consoleread

def editorStep : Console Editor P → ConsAct P → Option (Console Editor P) :=
  Console.step Editor.key Editor.read

/-- The ring has what the editor has. -/
structure Sees (i : Input) (ed : Editor) : Prop where
  holds : Holds i.buf i.r i.e (ed.ready ++ ed.line)
  write : i.w = i.r + UInt32.ofNat ed.ready.length

/-- The same to everybody outside, and rings that have what the editor has. -/
structure Shows (s : Console Input P) (u : Console Editor P) : Prop where
  sees : Sees s.input u.input
  call : s.call = u.call
  asleep : s.asleep = u.asleep
  killed : s.killed = u.killed
  dst : s.dst = u.dst
  ret : s.ret = u.ret
  echo : s.echo = u.echo
  received : s.received = u.received

/-- What is to be seen on the screen. -/
def render (out : List Echo) : List UInt8 :=
  out.foldl (fun text x => match x with
    | .char c => text ++ [c]
    | .backspace => text.dropLast) []

end Machine

/-! ## The ring as an editor -/

namespace Sees

variable {i : Input} {ed : Editor}

theorem start (c : UInt32) (buf : Fin INPUT_BUF → UInt8) : Sees ⟨buf, c, c, c⟩ ⟨[], []⟩ :=
  ⟨Holds.nil buf c, (UInt32.add_zero c).symm⟩

theorem room (h : Sees i ed) : ed.ready.length + ed.line.length ≤ INPUT_BUF := by
  have hroom := h.holds.room
  rwa [List.length_append] at hroom

theorem edit (h : Sees i ed) : i.e = i.r + UInt32.ofNat (ed.ready.length + ed.line.length) := by
  rw [h.holds.count, List.length_append]

theorem ready_nil (h : Sees i ed) : i.r = i.w ↔ ed.ready = [] := by
  have hroom : _ ≤ 128 := h.room
  rw [h.write, ← List.length_eq_zero_iff]
  constructor
  · intro he
    have hz : i.r + UInt32.ofNat 0 = i.r + UInt32.ofNat ed.ready.length :=
      (UInt32.add_zero i.r).trans he
    exact (Lib.Ring.add_ofNat_inj (by omega) (by omega) hz).symm
  · intro he
    rw [he]
    exact (UInt32.add_zero i.r).symm

theorem line_nil (h : Sees i ed) : i.e = i.w ↔ ed.line = [] := by
  have hroom : _ ≤ 128 := h.room
  rw [h.edit, h.write, ← List.length_eq_zero_iff]
  constructor
  · intro he
    have := Lib.Ring.add_ofNat_inj (by omega) (by omega) he
    omega
  · intro he
    rw [he, Nat.add_zero]

theorem count (h : Sees i ed) :
    i.e - i.r < UInt32.ofNat INPUT_BUF ↔ ed.ready.length + ed.line.length < INPUT_BUF := by
  have hsub := h.holds.sub_eq (by decide)
  rw [UInt32.lt_iff_toNat_lt, hsub, List.length_append]
  rfl

/-- A key is added to the line. -/
theorem add (h : Sees i ed) (hlt : ed.ready.length + ed.line.length < INPUT_BUF) (c : UInt8) :
    Sees { i with buf := Function.update i.buf (slot INPUT_BUF i.e) c, e := i.e + 1 }
      { ed with line := ed.line ++ [c] } := by
  refine ⟨?_, h.write⟩
  rw [← List.append_assoc]
  apply h.holds.push (by decide)
  rw [List.length_append]
  exact hlt

/-- The line can be read from now on. -/
theorem commit (h : Sees i ed) : Sees { i with w := i.e } ⟨ed.ready ++ ed.line, []⟩ := by
  refine ⟨?_, h.holds.count⟩
  rw [List.append_nil]
  exact h.holds

/-- The last key of the line is taken away. -/
theorem remove {l : List UInt8} {c : UInt8} (h : Sees i ed) (hl : ed.line = l ++ [c]) :
    i.buf (slot INPUT_BUF (i.e - 1)) = c ∧ Sees { i with e := i.e - 1 } { ed with line := l } := by
  have hholds := h.holds
  rw [hl, ← List.append_assoc] at hholds
  obtain ⟨hc, hless⟩ := hholds.unpush
  exact ⟨hc, hless, h.write⟩

/-- The first byte is read. -/
theorem take {l : List UInt8} {c : UInt8} (h : Sees i ed) (hl : ed.ready = c :: l) :
    i.buf (slot INPUT_BUF i.r) = c ∧ Sees { i with r := i.r + 1 } { ed with ready := l } := by
  have hholds := h.holds
  rw [hl, List.cons_append] at hholds
  obtain ⟨hc, hrest⟩ := hholds.pop
  refine ⟨hc, hrest, ?_⟩
  calc i.w = i.r + UInt32.ofNat (c :: l).length := by rw [h.write, hl]
    _ = i.r + 1 + UInt32.ofNat l.length := (Lib.Ring.add_one_add i.r l.length).symm

/-- The loop of `C('U')` ends at the start of the line, since there is no newline in it. -/
theorem kill : ∀ (k : Nat) {i : Input} {ed : Editor}, Sees i ed → nl ∉ ed.line → ed.line.length ≤ k →
    Sees (killLine k i).1 { ed with line := [] } ∧ (killLine k i).2 = ed.line.length := by
  intro k
  induction k with
  | zero =>
    intro i ed h _ hk
    have hl : ed.line = [] := List.length_eq_zero_iff.mp (by omega)
    rw [killLine, hl]
    refine ⟨?_, rfl⟩
    rw [← hl]
    exact h
  | succ k ih =>
    intro i ed h hnl hk
    rcases List.eq_nil_or_concat ed.line with hl | ⟨l, c, hl⟩
    · rw [killLine, if_neg (fun hne => hne.1 (h.line_nil.mpr hl)), hl]
      refine ⟨?_, rfl⟩
      rw [← hl]
      exact h
    · rw [List.concat_eq_append] at hl
      obtain ⟨hc, hless⟩ := h.remove hl
      have hne : i.e ≠ i.w := by
        intro he
        rw [h.line_nil.mp he] at hl
        exact absurd hl.symm (by simp)
      have hcnl : c ≠ nl := by
        intro hcn
        apply hnl
        rw [hl, hcn]
        exact List.mem_append_right l (List.mem_singleton_self nl)
      have hlen : ed.line.length = l.length + 1 := by
        rw [hl, List.length_append, List.length_singleton]
      have hnl' : nl ∉ l := by
        intro hmem
        apply hnl
        rw [hl]
        exact List.mem_append_left [c] hmem
      obtain ⟨hsees, hm⟩ := ih hless hnl' (by dsimp only; omega)
      rw [killLine, if_pos ⟨hne, hc ▸ hcnl⟩]
      refine ⟨hsees, ?_⟩
      rw [hlen]
      exact congrArg (· + 1) hm

end Sees

/-- What holds of the editor between keys and reads: the line has no end in it, and with all
slots in use everything can be read. -/
structure Editor.Tidy (ed : Editor) : Prop where
  room : ed.ready.length + ed.line.length ≤ INPUT_BUF
  full : ed.ready.length + ed.line.length = INPUT_BUF → ed.line = []
  nl : nl ∉ ed.line
  eof : ctrlD ∉ ed.line

theorem Sees.intr {i : Input} {ed : Editor} (h : Sees i ed) (ht : ed.Tidy) (c : UInt8) :
    Sees (consoleintr i c).1 (ed.key c).1 ∧ (consoleintr i c).2 = (ed.key c).2 := by
  rw [consoleintr, Editor.key]
  split
  · exact ⟨h, rfl⟩
  split
  · obtain ⟨hsees, hm⟩ := h.kill INPUT_BUF ht.nl (by have := ht.room; omega)
    refine ⟨hsees, ?_⟩
    dsimp only
    rw [hm]
  split
  · rcases List.eq_nil_or_concat ed.line with hl | ⟨l, x, hl⟩
    · rw [if_neg (not_not_intro (h.line_nil.mpr hl)), if_neg (not_not_intro hl)]
      exact ⟨h, rfl⟩
    · rw [List.concat_eq_append] at hl
      have hline : ed.line ≠ [] := by
        rw [hl]
        exact List.append_ne_nil_of_right_ne_nil l (List.cons_ne_nil x [])
      rw [if_pos (fun he => hline (h.line_nil.mp he)), if_pos hline]
      refine ⟨?_, rfl⟩
      dsimp only
      rw [hl, List.dropLast_concat]
      exact (h.remove hl).2
  by_cases hkey : c ≠ 0 ∧ ed.ready.length + ed.line.length < INPUT_BUF
  · have hadd := h.add hkey.2 (if c = cr then nl else c)
    have hfull := hadd.holds.full_iff (by decide)
    rw [List.length_append, List.length_append, List.length_singleton, ← Nat.add_assoc] at hfull
    rw [if_pos ⟨hkey.1, h.count.mpr hkey.2⟩, if_pos hkey]
    generalize (if c = cr then nl else c) = x at hadd hfull ⊢
    simp only [hfull]
    split
    · refine ⟨?_, rfl⟩
      rw [List.append_assoc]
      exact hadd.commit
    · exact ⟨hadd, rfl⟩
  · rw [if_neg (fun hk => hkey ⟨hk.1, h.count.mp hk.2⟩), if_neg hkey]
    exact ⟨h, rfl⟩

/-- The reader of the ring takes what the reader of the list takes. -/
theorem Sees.read (killed : Bool) (target : Nat) : ∀ (n : Nat) {i : Input} {ed : Editor}, Sees i ed →
    Sees (consoleread killed target n i).1 { ed with ready := (readLine killed target n ed.ready).1 } ∧
      (consoleread killed target n i).2 = (readLine killed target n ed.ready).2 := by
  intro n
  induction n with
  | zero =>
    intro i ed h
    exact ⟨h, rfl⟩
  | succ n ih =>
    intro i ed h
    cases hr : ed.ready with
    | nil =>
      rw [consoleread, if_pos (h.ready_nil.mpr hr), readLine]
      refine ⟨?_, rfl⟩
      rw [← hr]
      exact h
    | cons c l =>
      obtain ⟨hc, hrest⟩ := h.take hr
      have hne : i.r ≠ i.w := by
        intro he
        rw [h.ready_nil.mp he] at hr
        cases hr
      rw [consoleread, if_neg hne, readLine]
      dsimp only
      rw [hc]
      split
      · split
        · -- the byte is put back: the counters are as before
          have hback : i.r + 1 - 1 = i.r := UInt32.add_sub_cancel i.r 1
          rw [hback]
          refine ⟨?_, rfl⟩
          rw [← hr]
          exact h
        · exact ⟨hrest, rfl⟩
      split
      · exact ⟨hrest, rfl⟩
      · obtain ⟨hsees, hout⟩ := ih hrest
        exact ⟨hsees, congrArg (fun out => (c :: out.1, out.2)) hout⟩

/-! ## What a key does to the editor -/

theorem render_char (out : List Echo) (c : UInt8) : render (out ++ [.char c]) = render out ++ [c] := by
  rw [render, List.foldl_append]
  rfl

theorem render_backspace (out : List Echo) : render (out ++ [.backspace]) = (render out).dropLast := by
  rw [render, List.foldl_append]
  rfl

theorem render_kill {text : List UInt8} : ∀ (line : List UInt8) {out : List Echo},
    render out = text ++ line → render (out ++ List.replicate line.length .backspace) = text := by
  intro line
  induction line using List.reverseRecOn with
  | nil =>
    intro out h
    rw [List.length_nil, List.replicate_zero, List.append_nil, h, List.append_nil]
  | append_singleton l c ih =>
    intro out h
    rw [List.length_append, List.length_singleton, List.replicate_succ]
    rw [← List.singleton_append, ← List.append_assoc]
    apply ih
    rw [render_backspace, h, ← List.append_assoc, List.dropLast_concat]

/-- A key, from `ed` to `ed'`: what it prints makes the screen show what the editor has, and
if it does not wake up the readers, they have nothing more to read than before. -/
structure Keyed (ed ed' : Editor) (wakes : Bool) (out : List Echo) : Prop where
  tidy : ed'.Tidy
  screen : ∀ echo text, render echo = text ++ ed.ready ++ ed.line →
    render (echo ++ out) = text ++ ed'.ready ++ ed'.line
  quiet : wakes = false → ed'.ready = ed.ready

theorem Keyed.refl {ed : Editor} (h : ed.Tidy) : Keyed ed ed false [] :=
  ⟨h, fun echo text hscreen => by rw [List.append_nil, hscreen], fun _ => rfl⟩

theorem Editor.key_keyed {ed : Editor} (h : ed.Tidy) (c : UInt8) :
    Keyed ed (ed.key c).1 (ed.key c).2.1 (ed.key c).2.2 := by
  have hroom : _ ≤ 128 := h.room
  rw [Editor.key]
  split
  · exact Keyed.refl h
  split
  · refine ⟨⟨?_, fun _ => rfl, List.not_mem_nil, List.not_mem_nil⟩, ?_, fun _ => rfl⟩
    · exact Nat.le_trans (Nat.le_add_right _ _) h.room
    · intro echo text hscreen
      rw [render_kill ed.line hscreen, List.append_nil]
  split
  · rcases List.eq_nil_or_concat ed.line with hl | ⟨l, x, hl⟩
    · rw [if_neg (not_not_intro hl)]
      exact Keyed.refl h
    · rw [List.concat_eq_append] at hl
      have hline : ed.line ≠ [] := by
        rw [hl]
        exact List.append_ne_nil_of_right_ne_nil l (List.cons_ne_nil x [])
      have hlen : ed.line.length = l.length + 1 := by
        rw [hl, List.length_append, List.length_singleton]
      rw [if_pos hline, hl, List.dropLast_concat]
      have hmem : ∀ y ∈ l, y ∈ ed.line := fun y hy => hl ▸ List.mem_append_left [x] hy
      refine ⟨⟨?_, fun hfull => ?_, fun hy => h.nl (hmem _ hy), fun hy => h.eof (hmem _ hy)⟩,
        fun echo text hscreen => ?_, fun _ => rfl⟩
      · show _ ≤ 128
        dsimp only
        omega
      · replace hfull : ed.ready.length + l.length = 128 := hfull
        omega
      · rw [render_backspace, hscreen, hl, ← List.append_assoc, List.dropLast_concat]
  split
  next hkey =>
    have hlt : _ < 128 := hkey.2
    have hcr : (if c = cr then nl else c) ≠ cr := by
      split
      · decide
      · assumption
    generalize (if c = cr then nl else c) = x
    dsimp only
    split
    · refine ⟨⟨?_, fun _ => rfl, List.not_mem_nil, List.not_mem_nil⟩,
        fun echo text hscreen => ?_, fun hw => (nomatch hw)⟩
      · show _ ≤ 128
        simp only [List.length_append, List.length_singleton, List.length_nil]
        omega
      · rw [render_char, hscreen]
        simp only [List.append_assoc, List.append_nil]
    next hend =>
      obtain ⟨hnl, heof, hfull⟩ : x ≠ nl ∧ x ≠ ctrlD ∧ ed.ready.length + ed.line.length + 1 ≠ 128 :=
        ⟨fun he => hend (.inl he), fun he => hend (.inr (.inl he)), fun he => hend (.inr (.inr he))⟩
      have hmem : ∀ y, y ≠ x → y ∉ ed.line → y ∉ ed.line ++ [x] := by
        intro y hne hy hin
        rcases List.mem_append.mp hin with hin | hin
        · exact hy hin
        · exact hne (List.mem_singleton.mp hin)
      refine ⟨⟨?_, fun hall => ?_, hmem nl hnl.symm h.nl, hmem ctrlD heof.symm h.eof⟩,
        fun echo text hscreen => ?_, fun _ => rfl⟩
      · show _ ≤ 128
        simp only [List.length_append, List.length_singleton]
        omega
      · replace hall : ed.ready.length + (ed.line ++ [x]).length = 128 := hall
        rw [List.length_append, List.length_singleton] at hall
        omega
      · rw [render_char, hscreen]
        simp only [List.append_assoc]
  next => exact Keyed.refl h

/-! ## What a read takes -/

/-- A section of `consoleread`: what it copies and, at the end of the file, the `C('D')` come
from the front of what there is, at most one line of it; and it sleeps only when it has taken
all that there is. -/
structure Reads (killed : Bool) (n : Nat) (ready ready' bs : List UInt8) (e : Stop) : Prop where
  front : ready = bs ++ (if e = .done true then [ctrlD] else []) ++ ready'
  bound : bs.length ≤ n
  line : nl ∉ bs.dropLast
  eof : ctrlD ∉ bs
  failed : e = .failed → killed = true
  sleeps : ∀ m, e = .sleeps m → killed = false ∧ ready' = [] ∧ nl ∉ bs ∧ 0 < m ∧ bs.length + m = n

theorem readLine_reads (killed : Bool) (target : Nat) : ∀ (n : Nat) (ready : List UInt8),
    Reads killed n ready (readLine killed target n ready).1 (readLine killed target n ready).2.1
      (readLine killed target n ready).2.2 := by
  intro n
  induction n with
  | zero =>
    intro ready
    exact ⟨rfl, Nat.le_refl 0, List.not_mem_nil, List.not_mem_nil, nofun, nofun⟩
  | succ n ih =>
    intro ready
    cases ready with
    | nil =>
      rw [readLine]
      cases killed with
      | true => exact ⟨rfl, Nat.zero_le _, List.not_mem_nil, List.not_mem_nil, fun _ => rfl, nofun⟩
      | false =>
        refine ⟨rfl, Nat.zero_le _, List.not_mem_nil, List.not_mem_nil, nofun, fun m hm => ?_⟩
        cases hm
        exact ⟨rfl, rfl, List.not_mem_nil, Nat.succ_pos n, Nat.zero_add _⟩
    | cons c l =>
      rw [readLine]
      split
      next hc =>
        split
        · exact ⟨rfl, Nat.zero_le _, List.not_mem_nil, List.not_mem_nil, nofun, nofun⟩
        · refine ⟨?_, Nat.zero_le _, List.not_mem_nil, List.not_mem_nil, nofun, nofun⟩
          rw [hc]
          rfl
      next hc =>
        split
        · refine ⟨rfl, Nat.succ_le_succ (Nat.zero_le n), List.not_mem_nil, ?_, nofun, nofun⟩
          exact fun hmem => hc (List.mem_singleton.mp hmem).symm
        next hnl =>
          obtain ⟨hfront, hbound, hline, heof, hfailed, hsleeps⟩ := ih l
          generalize readLine killed target n l = out at hfront hbound hline heof hfailed hsleeps
          obtain ⟨ready', bs, e⟩ := out
          refine ⟨?_, Nat.succ_le_succ hbound, ?_, ?_, hfailed, fun m hm => ?_⟩
          · rw [List.cons_append, List.cons_append, ← hfront]
          · cases bs with
            | nil => exact List.not_mem_nil
            | cons b bs =>
              rw [List.dropLast_cons_cons]
              exact fun hmem => (List.mem_cons.mp hmem).elim (fun he => hnl he.symm) hline
          · exact fun hmem => (List.mem_cons.mp hmem).elim (fun he => hc he.symm) heof
          · obtain ⟨hk, hr, hno, hpos, hlen⟩ := hsleeps m hm
            refine ⟨hk, hr, ?_, hpos, ?_⟩
            · exact fun hmem => (List.mem_cons.mp hmem).elim (fun he => hnl he.symm) hno
            · dsimp only at hlen ⊢
              rw [List.length_cons]
              omega

/-! ## The processes around the editor -/

/-- What holds of a process: it sleeps only in a call and when there is nothing to read; in a
call it still has to copy what is missing, and no line has ended; and after the call it has
copied at most one line, without its `C('D')`, and got the number of bytes. -/
structure Reader (ready : List UInt8) (call : Option (Nat × Nat)) (asleep killed : Bool)
    (dst : List UInt8) (ret : Int) : Prop where
  rest : asleep = true → ready = [] ∧ call ≠ none
  within : ∀ n target, call = some (n, target) → dst.length + n = target ∧ nl ∉ dst
  line : nl ∉ dst.dropLast
  eof : ctrlD ∉ dst
  ret : call = none → ret = dst.length ∨ ret = -1 ∧ killed = true

theorem Reader.kill {ready : List UInt8} {call : Option (Nat × Nat)} {asleep killed : Bool}
    {dst : List UInt8} {ret : Int} (h : Reader ready call asleep killed dst ret) :
    Reader ready call asleep true dst ret :=
  { h with ret := fun hc => (h.ret hc).imp_right fun hr => ⟨hr.1, rfl⟩ }

theorem Reader.shrink {ready ready' : List UInt8} {call : Option (Nat × Nat)} {asleep killed : Bool}
    {dst : List UInt8} {ret : Int} (h : Reader ready call asleep killed dst ret)
    (hr : ready = [] → ready' = []) : Reader ready' call asleep killed dst ret :=
  { h with rest := fun ha => ⟨hr (h.rest ha).1, (h.rest ha).2⟩ }

section Machine

variable {P : Type}

/-- The invariant of the processes around an editor. -/
structure Sound (u : Console Editor P) : Prop where
  tidy : u.input.Tidy
  screen : render u.echo = u.received ++ u.input.ready ++ u.input.line
  reader : ∀ p, Reader u.input.ready (u.call p) (u.asleep p) (u.killed p) (u.dst p) (u.ret p)

theorem Sound.boot : Sound (Console.boot ⟨[], []⟩ : Console Editor P) where
  tidy := ⟨Nat.zero_le _, fun _ => rfl, List.not_mem_nil, List.not_mem_nil⟩
  screen := rfl
  reader := fun _ => ⟨nofun, nofun, List.not_mem_nil, List.not_mem_nil, fun _ => .inl rfl⟩

theorem Sound.key {u : Console Editor P} (h : Sound u) (c : UInt8) : Sound (u.key Editor.key c) := by
  obtain ⟨htidy, hscreen, hquiet⟩ := Editor.key_keyed h.tidy c
  rw [Console.key]
  generalize u.input.key c = out at htidy hscreen hquiet
  obtain ⟨ed, wakes, echo⟩ := out
  refine ⟨htidy, hscreen u.echo u.received h.screen, fun p => ?_⟩
  dsimp only at hquiet ⊢
  cases wakes with
  | true => exact { h.reader p with rest := nofun }
  | false => exact (h.reader p).shrink fun hr => (hquiet rfl).trans hr

theorem Sound.keys : ∀ (keys : List UInt8) {u : Console Editor P}, Sound u →
    Sound (keys.foldl (Console.key Editor.key) u) := by
  intro keys
  induction keys with
  | nil => exact fun h => h
  | cons c keys ih => exact fun h => ih (h.key c)

variable [DecidableEq P]

/-- A section keeps the invariant. Of `p` itself only what holds at the start of a section
is needed. -/
theorem Sound.readSection {u : Console Editor P} {p : P} {n target : Nat} (htidy : u.input.Tidy)
    (hscreen : render u.echo = u.received ++ u.input.ready ++ u.input.line)
    (hothers : ∀ q, q ≠ p →
      Reader u.input.ready (u.call q) (u.asleep q) (u.killed q) (u.dst q) (u.ret q))
    (hn : (u.dst p).length + n = target) (hnl : nl ∉ u.dst p) (heof : ctrlD ∉ u.dst p)
    (hawake : u.asleep p = false) : Sound (u.readSection Editor.read p target n) := by
  have hreads := readLine_reads (u.killed p) target n u.input.ready
  rw [Console.readSection, Editor.read]
  generalize readLine (u.killed p) target n u.input.ready = out at hreads
  obtain ⟨ready, bs, e⟩ := out
  obtain ⟨hfront, hbound, hline, heof', hfailed, hsleeps⟩ := hreads
  dsimp only at hfront hbound hline heof' hfailed hsleeps ⊢
  have htidy' : Editor.Tidy { u.input with ready := ready } := by
    have hlen := congrArg List.length hfront
    rw [List.length_append, List.length_append] at hlen
    have hroom : _ ≤ 128 := htidy.room
    refine ⟨?_, fun hfull => htidy.full ?_, htidy.nl, htidy.eof⟩
    · show _ ≤ 128
      dsimp only
      omega
    · replace hfull : ready.length + u.input.line.length = 128 := hfull
      show _ = 128
      omega
  have hless : u.input.ready = [] → ready = [] := by
    intro hr
    rw [hr] at hfront
    exact (List.append_eq_nil_iff.mp hfront.symm).2
  have hdst : ctrlD ∉ u.dst p ++ bs := by
    intro hmem
    exact (List.mem_append.mp hmem).elim heof heof'
  have hdrop : nl ∉ (u.dst p ++ bs).dropLast := by
    cases bs with
    | nil =>
      rw [List.append_nil]
      exact fun hmem => hnl (List.mem_of_mem_dropLast hmem)
    | cons b bs =>
      rw [List.dropLast_append_of_ne_nil (List.cons_ne_nil b bs)]
      exact fun hmem => (List.mem_append.mp hmem).elim hnl hline
  rcases e with eof | _ | m
  · refine ⟨htidy', ?_, fun q => ?_⟩
    · dsimp only
      rw [hscreen, hfront]
      cases eof <;> simp
    rcases eq_or_ne q p with he | hne
    · rw [he]
      simp only [Function.update_self]
      refine ⟨fun ha => ?_, nofun, hdrop, hdst, fun _ => .inl ?_⟩
      · rw [hawake] at ha
        cases ha
      · rw [List.length_append]
        omega
    · simp only [Function.update_of_ne hne]
      exact (hothers q hne).shrink hless
  · refine ⟨htidy', ?_, fun q => ?_⟩
    · dsimp only
      rw [hscreen, hfront]
      simp
    rcases eq_or_ne q p with he | hne
    · rw [he]
      simp only [Function.update_self]
      refine ⟨fun ha => ?_, nofun, hdrop, hdst, fun _ => .inr ⟨rfl, hfailed rfl⟩⟩
      rw [hawake] at ha
      cases ha
    · simp only [Function.update_of_ne hne]
      exact (hothers q hne).shrink hless
  · obtain ⟨-, hr, hno, hpos, hlen⟩ := hsleeps m rfl
    refine ⟨htidy', ?_, fun q => ?_⟩
    · dsimp only
      rw [hscreen, hfront]
      simp
    rcases eq_or_ne q p with he | hne
    · rw [he]
      simp only [Function.update_self]
      refine ⟨fun _ => ⟨hr, nofun⟩, fun n' t' hc => ?_, hdrop, hdst, nofun⟩
      cases hc
      rw [List.length_append]
      refine ⟨by omega, fun hmem => ?_⟩
      exact (List.mem_append.mp hmem).elim hnl hno
    · simp only [Function.update_of_ne hne]
      exact (hothers q hne).shrink hless

theorem Sound.killRunning {u : Console Editor P} (h : Sound u) (p : P) (late : Bool) :
    Sound (u.killRunning p late) := by
  rw [Console.killRunning]
  split
  · refine ⟨h.tidy, h.screen, fun q => ?_⟩
    dsimp only
    rcases eq_or_ne q p with he | hne
    · rw [he, Function.update_self]
      exact (h.reader p).kill
    · rw [Function.update_of_ne hne]
      exact h.reader q
  · exact h

theorem Sound.step {u u' : Console Editor P} {a : ConsAct P} (h : Sound u)
    (hs : editorStep u a = some u') : Sound u' := by
  cases a with
  | intr keys =>
    cases hs
    exact Sound.keys keys h
  | read p n late =>
    obtain ⟨hcall, hs⟩ := Option.ite_none_right_eq_some.mp hs
    obtain rfl := Option.some.inj hs
    have hawake : u.asleep p = false := by
      apply Bool.eq_false_iff.mpr
      intro ha
      exact ((h.reader p).rest ha).2 hcall
    apply Sound.killRunning
    apply Sound.readSection (u := { u with dst := Function.update u.dst p [] }) h.tidy h.screen
    · intro q hne
      dsimp only
      rw [Function.update_of_ne hne]
      exact h.reader q
    all_goals simp only [Function.update_self]
    · exact Nat.zero_add n
    · exact List.not_mem_nil
    · exact List.not_mem_nil
    · exact hawake
  | resume p late =>
    obtain ⟨hawake, hs⟩ := Option.ite_none_right_eq_some.mp hs
    cases hcall : u.call p with
    | none =>
      rw [hcall] at hs
      cases hs
    | some c =>
      obtain ⟨n, target⟩ := c
      rw [hcall] at hs
      obtain rfl := Option.some.inj hs
      obtain ⟨hn, hnl⟩ := (h.reader p).within n target hcall
      apply Sound.killRunning
      exact Sound.readSection h.tidy h.screen (fun q _ => h.reader q) hn hnl (h.reader p).eof hawake
  | kill p =>
    cases hs
    refine ⟨h.tidy, h.screen, fun q => ?_⟩
    dsimp only
    rcases eq_or_ne q p with he | hne
    · rw [he, Function.update_self, Function.update_self]
      exact { (h.reader p).kill with rest := nofun }
    · rw [Function.update_of_ne hne, Function.update_of_ne hne]
      exact h.reader q

/-! ## The code is the editor -/

omit [DecidableEq P] in
theorem Shows.key {s : Console Input P} {u : Console Editor P} (h : Shows s u) (ht : u.input.Tidy)
    (c : UInt8) : Shows (s.key consoleintr c) (u.key Editor.key c) := by
  obtain ⟨hsees, hout⟩ := h.sees.intr ht c
  rw [Console.key, Console.key]
  generalize consoleintr s.input c = out at hsees hout
  generalize u.input.key c = out' at hsees hout
  obtain ⟨input, wakes, echo⟩ := out
  obtain ⟨ed, wakes', echo'⟩ := out'
  cases hout
  refine ⟨hsees, h.call, ?_, h.killed, h.dst, h.ret, ?_, h.received⟩
  · dsimp only
    rw [h.asleep]
  · dsimp only
    rw [h.echo]

omit [DecidableEq P] in
theorem Shows.keys : ∀ (keys : List UInt8) {s : Console Input P} {u : Console Editor P}, Shows s u →
    Sound u → Shows (keys.foldl (Console.key consoleintr) s) (keys.foldl (Console.key Editor.key) u) := by
  intro keys
  induction keys with
  | nil => exact fun h _ => h
  | cons c keys ih => exact fun h hu => ih (h.key hu.tidy c) (hu.key c)

theorem Shows.readSection {s : Console Input P} {u : Console Editor P} (h : Shows s u) (p : P)
    (target n : Nat) :
    Shows (s.readSection consoleread p target n) (u.readSection Editor.read p target n) := by
  obtain ⟨i, call, asleep, killed, dst, ret, echo, received⟩ := s
  obtain ⟨ed, call', asleep', killed', dst', ret', echo', received'⟩ := u
  obtain ⟨hsees, rfl, rfl, rfl, rfl, rfl, rfl, rfl⟩ := h
  obtain ⟨hsees, hout⟩ := hsees.read (killed p) target n
  rw [Console.readSection, Console.readSection, Editor.read]
  dsimp only at hsees hout ⊢
  generalize consoleread (killed p) target n i = out at hsees hout
  generalize readLine (killed p) target n ed.ready = out' at hsees hout
  obtain ⟨i', bs, e⟩ := out
  obtain ⟨ready, bs', e'⟩ := out'
  cases hout
  cases e with
  | done eof => exact ⟨hsees, rfl, rfl, rfl, rfl, rfl, rfl, rfl⟩
  | failed => exact ⟨hsees, rfl, rfl, rfl, rfl, rfl, rfl, rfl⟩
  | sleeps m => exact ⟨hsees, rfl, rfl, rfl, rfl, rfl, rfl, rfl⟩

theorem Shows.killRunning {s : Console Input P} {u : Console Editor P} (h : Shows s u) (p : P)
    (late : Bool) : Shows (s.killRunning p late) (u.killRunning p late) := by
  rw [Console.killRunning, Console.killRunning]
  split
  · exact { h with killed := by rw [h.killed] }
  · exact h

theorem Shows.step {s s' : Console Input P} {u : Console Editor P} {a : ConsAct P} (h : Shows s u)
    (hu : Sound u) (hs : consoleStep s a = some s') : ∃ u', editorStep u a = some u' ∧ Shows s' u' := by
  cases a with
  | intr keys =>
    cases hs
    exact ⟨_, rfl, h.keys keys hu⟩
  | read p n late =>
    obtain ⟨hcall, hs⟩ := Option.ite_none_right_eq_some.mp hs
    obtain rfl := Option.some.inj hs
    have hfresh : Shows { s with dst := Function.update s.dst p [] }
        { u with dst := Function.update u.dst p [] } :=
      { h with dst := by rw [h.dst] }
    exact ⟨_, if_pos (h.call ▸ hcall), (hfresh.readSection p n n).killRunning p late⟩
  | resume p late =>
    obtain ⟨hawake, hs⟩ := Option.ite_none_right_eq_some.mp hs
    rw [h.call] at hs
    rw [editorStep, Console.step, if_pos (h.asleep ▸ hawake)]
    cases hcall : u.call p with
    | none =>
      rw [hcall] at hs
      cases hs
    | some c =>
      rw [hcall] at hs
      obtain rfl := Option.some.inj hs
      exact ⟨_, rfl, (h.readSection p c.2 c.1).killRunning p late⟩
  | kill p =>
    cases hs
    refine ⟨_, rfl, { h with asleep := ?_, killed := ?_ }⟩ <;> dsimp only
    · rw [h.asleep]
    · rw [h.killed]

/-- The input at boot; any three equal counters will do. -/
def Input.start (c : UInt32) : Input := ⟨fun _ => 0, c, c, c⟩

/-- A run of the code and the run of the editor beside it. -/
theorem shows_run {c : UInt32} {as : List (ConsAct P)} {s : Console Input P}
    (hr : Lib.run consoleStep (Console.boot (Input.start c)) as = some s) :
    ∃ u, Lib.run editorStep (Console.boot ⟨[], []⟩) as = some u ∧ Shows s u ∧ Sound u := by
  have hstart : Shows (Console.boot (Input.start c) : Console Input P) (Console.boot ⟨[], []⟩) :=
    ⟨Sees.start c _, rfl, rfl, rfl, rfl, rfl, rfl, rfl⟩
  refine Lib.run_sim (R := fun s u => Shows s u ∧ Sound u) (fun s a s' u h hs => ?_) as _ s _
    ⟨hstart, Sound.boot⟩ hr
  obtain ⟨u', hu, h'⟩ := h.1.step h.2 hs
  exact ⟨u', hu, h', h.2.step hu⟩

/-- Whatever the counters are at boot, the keys and the readers see a line editor: the ring has
the bytes to read and the line, and the calls, the sleepers, the bytes that are copied, the
results and what is printed are those of the same steps around the two lists. -/
theorem console_refines (c : UInt32) (as : List (ConsAct P)) (s : Console Input P)
    (hr : Lib.run consoleStep (Console.boot (Input.start c)) as = some s) :
    ∃ u, Lib.run editorStep (Console.boot ⟨[], []⟩) as = some u ∧ Shows s u := by
  obtain ⟨u, hu, hshows, -⟩ := shows_run hr
  exact ⟨u, hu, hshows⟩

/-- A read of a line that is edited before it is sent, and of the end of the file. -/
def editedLine : List (ConsAct Bool) :=
  [.read true 10 false, .intr [97, 98, ctrlH, 99, cr], .resume true false, .intr [ctrlD],
   .read false 3 false]

/-- The counters wrap around. -/
theorem console_refines_editedLine : ∃ s u,
    Lib.run consoleStep (Console.boot (Input.start 4294967294)) editedLine = some s ∧
    s.dst true = [97, 99, nl] ∧ s.ret true = 3 ∧ s.ret false = 0 ∧ s.input.r = 2 ∧
    Lib.run editorStep (Console.boot ⟨[], []⟩) editedLine = some u ∧ Shows s u := by
  have hrun : ∃ s, Lib.run consoleStep (Console.boot (Input.start 4294967294)) editedLine = some s ∧
      s.dst true = [97, 99, nl] ∧ s.ret true = 3 ∧ s.ret false = 0 ∧ s.input.r = 2 :=
    ⟨_, rfl, rfl, rfl, rfl, rfl⟩
  obtain ⟨s, hr, hdst, hret, heof, hwrap⟩ := hrun
  obtain ⟨u, hu, h⟩ := console_refines 4294967294 editedLine s hr
  exact ⟨s, u, hr, hdst, hret, heof, hwrap, hu, h⟩

/-! ## Sleepers -/

/-- `p` is killed between a test of `killed` and the sleep after it. -/
def ConsAct.killsLate (p : P) (a : ConsAct P) : Prop :=
  (∃ n, a = .read p n true) ∨ a = .resume p true

/-- `p` does not sleep once it is killed. -/
def Restless (p : P) (u : Console Editor P) : Prop := u.asleep p = true → u.killed p = false

omit [DecidableEq P] in
theorem Restless.key {p : P} {u : Console Editor P} (h : Restless p u) (c : UInt8) :
    Restless p (u.key Editor.key c) := by
  rw [Console.key]
  generalize u.input.key c = out
  obtain ⟨ed, wakes, echo⟩ := out
  cases wakes with
  | true => exact nofun
  | false => exact h

omit [DecidableEq P] in
theorem Restless.keys {p : P} : ∀ (keys : List UInt8) {u : Console Editor P}, Restless p u →
    Restless p (keys.foldl (Console.key Editor.key) u) := by
  intro keys
  induction keys with
  | nil => exact fun h => h
  | cons c keys ih => exact fun h => ih (h.key c)

/-- A section sleeps only after a test of `killed`. -/
theorem Restless.readSection {p : P} {u : Console Editor P} (h : Restless p u) (q : P) (target n : Nat) :
    Restless p (u.readSection Editor.read q target n) := by
  have hreads := readLine_reads (u.killed q) target n u.input.ready
  rw [Console.readSection, Editor.read]
  generalize readLine (u.killed q) target n u.input.ready = out at hreads
  obtain ⟨ready, bs, e⟩ := out
  rcases e with eof | _ | m
  · exact h
  · exact h
  · intro ha
    dsimp only at ha ⊢
    rcases eq_or_ne p q with he | hne
    · rw [he]
      exact (hreads.sleeps m rfl).1
    · rw [Function.update_of_ne hne] at ha
      exact h ha

theorem Restless.killRunning {p q : P} {late : Bool} {u : Console Editor P} (h : Restless p u)
    (hlate : late = true → q ≠ p) : Restless p (u.killRunning q late) := by
  intro ha
  rw [Console.killRunning] at ha ⊢
  split at ha
  next hl =>
    rw [if_pos hl]
    dsimp only at ha ⊢
    rw [Function.update_of_ne (hlate hl).symm]
    exact h ha
  next hl =>
    rw [if_neg hl]
    exact h ha

theorem Restless.step {p : P} {u u' : Console Editor P} {a : ConsAct P} (h : Restless p u)
    (hlate : ¬ a.killsLate p) (hs : editorStep u a = some u') : Restless p u' := by
  cases a with
  | intr keys =>
    cases hs
    exact Restless.keys keys h
  | read q n late =>
    obtain ⟨-, hs⟩ := Option.ite_none_right_eq_some.mp hs
    obtain rfl := Option.some.inj hs
    have hfresh : Restless p { u with dst := Function.update u.dst q [] } := h
    apply (hfresh.readSection q n n).killRunning
    intro hl he
    exact hlate (.inl ⟨n, by rw [he, hl]⟩)
  | resume q late =>
    obtain ⟨-, hs⟩ := Option.ite_none_right_eq_some.mp hs
    cases hcall : u.call q with
    | none =>
      rw [hcall] at hs
      cases hs
    | some c =>
      rw [hcall] at hs
      obtain rfl := Option.some.inj hs
      apply (h.readSection q c.2 c.1).killRunning
      intro hl he
      exact hlate (.inr (by rw [he, hl]))
  | kill q =>
    cases hs
    intro ha
    dsimp only at ha ⊢
    rcases eq_or_ne p q with he | hne
    · rw [he, Function.update_self] at ha
      cases ha
    · rw [Function.update_of_ne hne] at ha ⊢
      exact h ha

/-- A good state, with `ready` to be read and `line` edited: the screen shows what was read and
these two; the line has no end in it; when all slots are in use there is something to read;
who sleeps is in a call and has nothing to read; a call copies at most one line and never a
`C('D')`, and returns the number of bytes, unless the process is killed. -/
structure Orderly (s : Console Input P) (ready line : List UInt8) : Prop where
  holds : Holds s.input.buf s.input.r s.input.e (ready ++ line)
  write : s.input.w = s.input.r + UInt32.ofNat ready.length
  screen : render s.echo = s.received ++ ready ++ line
  open_line : nl ∉ line ∧ ctrlD ∉ line
  full : s.input.e = s.input.r + UInt32.ofNat INPUT_BUF → s.input.w = s.input.e
  rest : ∀ p, s.asleep p = true → s.input.r = s.input.w ∧ s.call p ≠ none
  within : ∀ p n target, s.call p = some (n, target) → (s.dst p).length + n = target ∧ nl ∉ s.dst p
  copied : ∀ p, nl ∉ (s.dst p).dropLast ∧ ctrlD ∉ s.dst p
  ret : ∀ p, s.call p = none → s.ret p = (s.dst p).length ∨ s.ret p = -1 ∧ s.killed p = true

/-- In every state of every run; and who sleeps although it is killed was killed between its
test of `killed` and its sleep. -/
theorem console_sound (c : UInt32) (as : List (ConsAct P)) (s : Console Input P)
    (hr : Lib.run consoleStep (Console.boot (Input.start c)) as = some s) :
    (∃ ready line, Orderly s ready line) ∧
      ∀ p, s.asleep p = true → s.killed p = true → ∃ a ∈ as, a.killsLate p := by
  obtain ⟨u, hu, h, hsound⟩ := shows_run hr
  refine ⟨⟨u.input.ready, u.input.line, h.sees.holds, h.sees.write, ?_,
    ⟨hsound.tidy.nl, hsound.tidy.eof⟩, fun hfull => ?_, fun p hp => ?_, fun p n target hc => ?_,
    fun p => ?_, fun p hc => ?_⟩, fun p ha hk => ?_⟩
  · rw [h.echo, h.received]
    exact hsound.screen
  · have hlen := (h.sees.holds.full_iff (by decide)).mp hfull
    rw [List.length_append] at hlen
    exact (h.sees.line_nil.mpr (hsound.tidy.full hlen)).symm
  · obtain ⟨hready, hc⟩ := (hsound.reader p).rest (h.asleep ▸ hp)
    exact ⟨h.sees.ready_nil.mpr hready, h.call ▸ hc⟩
  · rw [h.dst]
    exact (hsound.reader p).within n target (h.call ▸ hc)
  · rw [h.dst]
    exact ⟨(hsound.reader p).line, (hsound.reader p).eof⟩
  · rw [h.dst, h.ret, h.killed]
    exact (hsound.reader p).ret (h.call ▸ hc)
  · by_contra hno
    have hmeets : Lib.Meets editorStep (fun _ a => ¬ a.killsLate p) (Console.boot ⟨[], []⟩) as :=
      Lib.meets_of_forall as _ fun a hmem hl => hno ⟨a, hmem, hl⟩
    have hrest : Restless p u := by
      refine Lib.run_inv (fun u a u' hi hok hs => hi.step hok hs) as _ u ?_ hmeets hu
      exact nofun
    rw [h.asleep] at ha
    rw [h.killed, hrest ha] at hk
    cases hk

/-- `editedLine` with a reader that is killed too late, and one that is woken up and killed. -/
def lateKill : List (ConsAct Bool) :=
  editedLine ++ [.read true 4 false, .kill true, .resume true false, .read false 2 true]

theorem console_sound_lateKill : ∃ s ready line,
    Lib.run consoleStep (Console.boot (Input.start 4294967294)) lateKill = some s ∧
    s.ret true = -1 ∧ s.asleep false = true ∧ s.killed false = true ∧ Orderly s ready line ∧
    ∃ a ∈ lateKill, a.killsLate false := by
  have hrun : ∃ s, Lib.run consoleStep (Console.boot (Input.start 4294967294)) lateKill = some s ∧
      s.ret true = -1 ∧ s.asleep false = true ∧ s.killed false = true :=
    ⟨_, rfl, rfl, rfl, rfl⟩
  obtain ⟨s, hr, hret, ha, hk⟩ := hrun
  obtain ⟨⟨ready, line, h⟩, hlate⟩ := console_sound 4294967294 lateKill s hr
  exact ⟨s, ready, line, hr, hret, ha, hk, h, hlate false ha hk⟩

end Machine

end Xv6.Dev

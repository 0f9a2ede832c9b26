import Xv6.File.Inode
import Xv6.Lib.Run

/- Calls that create one path at the same time (`project3_filesystem/sysfile.c`):
   `sys_symlink(old, new)` in any number of processes, with `open(new, O_CREATE)`,
   `mkdir(new)` and `mknod(new)`, and with writes to any inode.

   The state has the entry of `new` in its directory, and the inodes with their locks. An
   action is what a call does between two points at which it can wait for an inode lock:
   the walk of `namei(new)` and the first part of `create` hold the lock of the
   directory, the rest of `create` and what follows it hold that of the inode.

   `sys_symlink` tests whether `new` exists and calls `create` later, and `create` returns
   any inode it finds when it is asked for a link. And it copies `old` over the 52 bytes of
   the addresses whatever its length: what is behind goes to the next entry of `icache`,
   which can be any inode, its type and addresses from the 133rd byte on. The model does not
   carry that out. So a link is made of the inode that the call has allocated, and nothing
   else is written, exactly when the second search finds no entry and `old` has at most 52
   bytes (`never_clobbers_iff`). -/
namespace Xv6.File

/-- A system call with the path `new`; `creat` is `open` with `O_CREATE`. -/
inductive NewCall where
  | symlink (old : List UInt8)
  | creat
  | mkdir
  | mknod
  deriving DecidableEq, Repr

/-- The type with which the call calls `create`. -/
def NewCall.type : NewCall → FileType
  | .symlink _ => .T_SYM
  | .creat => .T_FILE
  | .mkdir => .T_DIR
  | .mknod => .T_DEV

/-- The 52 bytes of the addresses are `words`. `maker` is the call that allocated the
inode; no code reads it. -/
structure Node where
  type : FileType := .none
  words : List UInt8 := []
  locked : Bool := false
  maker : Nat := 0
  deriving DecidableEq, Repr

/-- Where a process is, with the number of its call: before `namei(new)` or `create`,
behind a `namei(new)` that returned 0, in `create` with an inode it has found and not
locked, or back from `create` with a locked inode. -/
inductive NewPc where
  | idle
  | start (id : Nat) (c : NewCall)
  | tested (id : Nat) (old : List UInt8)
  | found (id : Nat) (c : NewCall) (ip : Nat)
  | got (id : Nat) (c : NewCall) (ip : Nat)
  deriving DecidableEq, Repr

structure Names (P : Type) where
  entry : Option Nat
  node : Nat → Node
  next : Nat
  proc : P → NewPc

inductive NewAct (P : Type) where
  | begin (p : P) (c : NewCall)
  | namei (p : P)
  | lookup (p : P) (i : Nat)
  | ilock (p : P)
  | finish (p : P)
  | write (ip : Nat) (words : List UInt8)

/-- The process that acts; a write can be anybody's. -/
def NewAct.proc {P : Type} : NewAct P → Option P
  | .begin p _ => some p
  | .namei p => some p
  | .lookup p _ => some p
  | .ilock p => some p
  | .finish p => some p
  | .write _ _ => none

/-- `memmove(&dp->addrs, old, strlen(old))`, as far as the 52 bytes go. -/
def storePath (old words : List UInt8) : List UInt8 := (old ++ words.drop old.length).take 52

/-- Where `create` of a call begins: for `sys_symlink`, behind its test. -/
def NewPc.create : NewPc → Option (Nat × NewCall)
  | .idle => none
  | .start _ (.symlink _) => none
  | .start id .creat => some (id, .creat)
  | .start id .mkdir => some (id, .mkdir)
  | .start id .mknod => some (id, .mknod)
  | .tested id old => some (id, .symlink old)
  | .found _ _ _ => none
  | .got _ _ _ => none

/-- Where `sys_symlink` begins. -/
def NewPc.symlink : NewPc → Option (Nat × List UInt8)
  | .idle => none
  | .start id (.symlink old) => some (id, old)
  | .start _ .creat => none
  | .start _ .mkdir => none
  | .start _ .mknod => none
  | .tested _ _ => none
  | .found _ _ _ => none
  | .got _ _ _ => none

/-- What a call does to the inode that `create` has returned, before it unlocks it. -/
def NewCall.finish (c : NewCall) (x : Node) : Node :=
  match c with
  | .symlink old => { x with type := .T_SYM, words := storePath old x.words, locked := false }
  | .creat => { x with locked := false }
  | .mkdir => { x with locked := false }
  | .mknod => { x with locked := false }

section Machine

variable {P : Type} [DecidableEq P]

def Names.goto (s : Names P) (p : P) (c : NewPc) : Names P :=
  { s with proc := Function.update s.proc p c }

def Names.setNode (s : Names P) (ip : Nat) (x : Node) : Names P :=
  { s with node := Function.update s.node ip x }

/-- `create` up to the release of the directory: an inode it finds, or a new one, `i`. -/
def lookupStep (s : Names P) (p : P) (id : Nat) (c : NewCall) (i : Nat) : Option (Names P) :=
  match s.entry with
  | some ip => some (s.goto p (.found id c ip))
  | none =>
    if (s.node i).type = .none then
      some ({ s.setNode i { type := c.type, words := List.replicate 52 0, locked := true, maker := id } with
        entry := some i }.goto p (.got id c i))
    else none

def newStep (s : Names P) : NewAct P → Option (Names P)
  | .begin p c =>
    if s.proc p = .idle then some { s.goto p (.start s.next c) with next := s.next + 1 } else none
  | .namei p =>
    match (s.proc p).symlink with
    | none => none
    | some (id, old) =>
      if s.entry = none then some (s.goto p (.tested id old)) else some (s.goto p .idle)
  | .lookup p i =>
    match (s.proc p).create with
    | none => none
    | some (id, c) => lookupStep s p id c i
  | .ilock p =>
    match s.proc p with
    | .idle => none
    | .start _ _ => none
    | .tested _ _ => none
    | .found id c ip =>
      if (s.node ip).locked then none
      else if c.type = .T_SYM ∨ c.type = .T_FILE ∧ (s.node ip).type = .T_FILE then
        some ((s.setNode ip { s.node ip with locked := true }).goto p (.got id c ip))
      else some (s.goto p .idle)
    | .got _ _ _ => none
  | .finish p =>
    match s.proc p with
    | .idle => none
    | .start _ _ => none
    | .tested _ _ => none
    | .found _ _ _ => none
    | .got _ c ip => some ((s.setNode ip (c.finish (s.node ip))).goto p .idle)
  | .write ip words =>
    if (s.node ip).locked = false ∧ ((s.node ip).type = .T_FILE ∨ (s.node ip).type = .T_DIR) then
      some (s.setNode ip { s.node ip with words := words })
    else none

/-- The step makes a link of an inode that another call has allocated, or writes behind the
inode of the link. -/
def Clobbers (s : Names P) : NewAct P → Prop
  | .finish p => ∃ id old ip, s.proc p = .got id (.symlink old) ip ∧
      ((s.node ip).maker ≠ id ∨ 52 < old.length)
  | .begin _ _ => False
  | .namei _ => False
  | .lookup _ _ => False
  | .ilock _ => False
  | .write _ _ => False

/-- A `create` of `sys_symlink` finds no entry, and the inode that it makes has room for
the path. -/
def FreshLink (s : Names P) : NewAct P → Prop
  | .lookup p _ => ∀ id old, s.proc p = .tested id old → s.entry = none ∧ old.length ≤ 52
  | .begin _ _ => True
  | .namei _ => True
  | .ilock _ => True
  | .finish _ => True
  | .write _ _ => True

/-! ## What a step does -/

variable {s s' t : Names P} {p : P} {a : NewAct P}

/-- How a process goes on without allocating an inode. -/
inductive Goes (s : Names P) : NewPc → NewPc → Prop
  | namei (id : Nat) (old : List UInt8) : Goes s (.start id (.symlink old)) (.tested id old)
  | lookup {x : NewPc} {id : Nat} {c : NewCall} {ip : Nat} (hx : x.create = some (id, c))
      (he : s.entry = some ip) : Goes s x (.found id c ip)
  | ilock (id : Nat) (c : NewCall) (ip : Nat) : Goes s (.found id c ip) (.got id c ip)
  | back (x : NewPc) : Goes s x .idle

/-- Inodes in use stay in use and nothing is allocated. -/
structure SameNodes (s s' : Names P) : Prop where
  entry : s'.entry = s.entry
  makers : ∀ ip, (s'.node ip).maker = (s.node ip).maker
  used : ∀ ip, (s.node ip).type ≠ .none → (s'.node ip).type ≠ .none

/-- The kinds of steps. -/
inductive NewEffect (s : Names P) (a : NewAct P) (s' : Names P) : Prop
  | begin (p : P) (c : NewCall) (hp : s.proc p = .idle)
      (hproc : s'.proc = Function.update s.proc p (.start s.next c)) (hnext : s'.next = s.next + 1)
      (hn : SameNodes s s')
  | goes (p : P) (y : NewPc) (ha : a.proc = some p)
      (hfound : ∀ id c ip, y = .found id c ip → ∃ i, a = .lookup p i) (hg : Goes s (s.proc p) y)
      (hproc : s'.proc = Function.update s.proc p y) (hnext : s'.next = s.next) (hn : SameNodes s s')
  | alloc (p : P) (id : Nat) (c : NewCall) (i : Nat) (x : Node) (ha : a = .lookup p i)
      (hp : (s.proc p).create = some (id, c)) (hfree : (s.node i).type = .none) (hx : x.type ≠ .none ∧ x.maker = id)
      (hproc : s'.proc = Function.update s.proc p (.got id c i)) (hnext : s'.next = s.next)
      (hentry : s'.entry = some i) (hnode : s'.node = Function.update s.node i x)
  | write (hproc : s'.proc = s.proc) (hnext : s'.next = s.next) (hn : SameNodes s s')

omit [DecidableEq P] in
theorem SameNodes.same (hn : s'.node = s.node) (he : s'.entry = s.entry) : SameNodes s s' :=
  ⟨he, fun _ => by rw [hn], fun _ h => by rwa [hn]⟩

omit [DecidableEq P] in
theorem SameNodes.setNode (s : Names P) (ip : Nat) {x : Node} (hm : x.maker = (s.node ip).maker)
    (hu : (s.node ip).type ≠ .none → x.type ≠ .none) : SameNodes s (s.setNode ip x) := by
  refine ⟨rfl, fun j => ?_, fun j hj => ?_⟩
  · show (Function.update s.node ip x j).maker = _
    by_cases hji : j = ip
    · rw [hji, Function.update_self, hm]
    · rw [Function.update_of_ne hji]
  · show (Function.update s.node ip x j).type ≠ _
    by_cases hji : j = ip
    · rw [hji, Function.update_self]
      exact hu (hji ▸ hj)
    · rwa [Function.update_of_ne hji]

theorem NewCall.type_ne (c : NewCall) : c.type ≠ .none := by
  cases c <;>
  · intro h
    cases h

theorem NewPc.symlink_some {x : NewPc} {id : Nat} {old : List UInt8} (h : x.symlink = some (id, old)) :
    x = .start id (.symlink old) := by
  cases x with
  | start id' c =>
    cases c with
    | symlink old' => cases h; rfl
    | creat => cases h
    | mkdir => cases h
    | mknod => cases h
  | idle => cases h
  | tested _ _ => cases h
  | found _ _ _ => cases h
  | got _ _ _ => cases h

theorem NewCall.finish_used (c : NewCall) (x : Node) (h : x.type ≠ .none) :
    (c.finish x).type ≠ .none := by
  cases c with
  | symlink old =>
    intro he
    cases he
  | creat => exact h
  | mkdir => exact h
  | mknod => exact h

theorem newStep_effect (h : newStep s a = some s') : NewEffect s a s' := by
  cases a with
  | begin p c =>
    obtain ⟨hp, he⟩ := Option.ite_none_right_eq_some.mp h
    cases he
    exact .begin p c hp rfl rfl (.same rfl rfl)
  | namei p =>
    cases hp : (s.proc p).symlink with
    | none => simp [newStep, hp] at h
    | some x =>
      obtain ⟨id, old⟩ := x
      simp only [newStep, hp] at h
      split at h
      · cases h
        refine .goes p (.tested id old) rfl (fun _ _ _ he => by cases he) ?_ rfl rfl (.same rfl rfl)
        rw [NewPc.symlink_some hp]
        exact .namei id old
      · cases h
        exact .goes p .idle rfl (fun _ _ _ he => by cases he) (.back _) rfl rfl (.same rfl rfl)
  | lookup p i =>
    cases hp : (s.proc p).create with
    | none => simp [newStep, hp] at h
    | some x =>
      obtain ⟨id, c⟩ := x
      simp only [newStep, hp, lookupStep] at h
      cases he : s.entry with
      | some ip =>
        rw [he] at h
        cases h
        exact .goes p (.found id c ip) rfl (fun _ _ _ _ => ⟨i, rfl⟩) (.lookup hp he) rfl rfl
          (.same rfl rfl)
      | none =>
        rw [he] at h
        obtain ⟨hfree, h⟩ := Option.ite_none_right_eq_some.mp h
        cases h
        exact .alloc p id c i _ rfl hp hfree ⟨c.type_ne, rfl⟩ rfl rfl rfl rfl
  | ilock p =>
    cases hp : s.proc p with
    | found id c ip =>
      simp only [newStep, hp] at h
      obtain ⟨-, h⟩ := Option.ite_none_left_eq_some.mp h
      split at h
      · cases h
        have hn := SameNodes.setNode s ip (x := { s.node ip with locked := true }) rfl (fun hu => hu)
        refine .goes p (.got id c ip) rfl (fun _ _ _ he => by cases he) ?_ rfl rfl
          ⟨hn.entry, hn.makers, hn.used⟩
        rw [hp]
        exact .ilock id c ip
      · cases h
        exact .goes p .idle rfl (fun _ _ _ he => by cases he) (.back _) rfl rfl (.same rfl rfl)
    | idle => simp [newStep, hp] at h
    | start _ _ => simp [newStep, hp] at h
    | tested _ _ => simp [newStep, hp] at h
    | got _ _ _ => simp [newStep, hp] at h
  | finish p =>
    cases hp : s.proc p with
    | got id c ip =>
      simp only [newStep, hp] at h
      cases h
      have hn := SameNodes.setNode s ip (x := c.finish (s.node ip)) (by cases c <;> rfl)
        (c.finish_used (s.node ip))
      exact .goes p .idle rfl (fun _ _ _ he => by cases he) (.back _) rfl rfl
        ⟨hn.entry, hn.makers, hn.used⟩
    | idle => simp [newStep, hp] at h
    | start _ _ => simp [newStep, hp] at h
    | tested _ _ => simp [newStep, hp] at h
    | found _ _ _ => simp [newStep, hp] at h
  | write ip words =>
    obtain ⟨-, he⟩ := Option.ite_none_right_eq_some.mp h
    cases he
    exact .write rfl rfl (.setNode s ip rfl (fun hu => hu))

/-! ## Runs -/

/-- The call a process is in. -/
def NewPc.id : NewPc → Option Nat
  | .idle => none
  | .start id _ => some id
  | .tested id _ => some id
  | .found id _ _ => some id
  | .got id _ _ => some id

/-- A call that has not allocated an inode. -/
def NewPc.waiting : NewPc → Option Nat
  | .idle => none
  | .start id _ => some id
  | .tested id _ => some id
  | .found id _ _ => some id
  | .got _ _ _ => none

/-- The inode `create` has found or returned. -/
def NewPc.node : NewPc → Option Nat
  | .idle => none
  | .start _ _ => none
  | .tested _ _ => none
  | .found _ _ ip => some ip
  | .got _ _ ip => some ip

/-- What is named or worked on is in use; calls have numbers of their own, below `next`,
and a call that has not allocated an inode is the maker of none. -/
structure Names.Ordered (s : Names P) : Prop where
  entry : ∀ ip, s.entry = some ip → (s.node ip).type ≠ .none
  used : ∀ p ip, (s.proc p).node = some ip → (s.node ip).type ≠ .none
  below : ∀ p id, (s.proc p).id = some id → id < s.next
  makers : ∀ ip, (s.node ip).maker < s.next
  alone : ∀ p q id, (s.proc p).id = some id → (s.proc q).id = some id → p = q
  waiting : ∀ p id, (s.proc p).waiting = some id → ∀ ip, (s.node ip).maker ≠ id

/-- A `sys_symlink` has the inode of another call, or is about to get it, or has one that is
too small for its path. -/
def Foul (s : Names P) (p : P) : Prop :=
  ∃ id old ip, s.proc p = .found id (.symlink old) ip ∨
    s.proc p = .got id (.symlink old) ip ∧ ((s.node ip).maker ≠ id ∨ 52 < old.length)

theorem NewPc.create_id {x : NewPc} {id : Nat} {c : NewCall} (h : x.create = some (id, c)) :
    x.id = some id ∧ x.waiting = some id := by
  cases x with
  | start id' c' =>
    cases c' with
    | symlink old => cases h
    | creat => cases h; exact ⟨rfl, rfl⟩
    | mkdir => cases h; exact ⟨rfl, rfl⟩
    | mknod => cases h; exact ⟨rfl, rfl⟩
  | tested id' old => cases h; exact ⟨rfl, rfl⟩
  | idle => cases h
  | found _ _ _ => cases h
  | got _ _ _ => cases h

theorem NewPc.waiting_id {x : NewPc} {id : Nat} (h : x.waiting = some id) : x.id = some id := by
  cases x with
  | idle => cases h
  | start _ _ => exact h
  | tested _ _ => exact h
  | found _ _ _ => exact h
  | got _ _ _ => cases h

omit [DecidableEq P] in
/-- A process that goes on keeps its call, and gets no inode but the one that is named. -/
theorem Goes.keeps {x y : NewPc} (h : Goes s x y) :
    (∀ id, y.id = some id → x.id = some id) ∧ (∀ id, y.waiting = some id → x.waiting = some id) ∧
      ∀ ip, y.node = some ip → x.node = some ip ∨ s.entry = some ip := by
  cases h with
  | namei id old => exact ⟨fun _ h => h, fun _ h => h, fun _ h => by cases h⟩
  | lookup hx he =>
    obtain ⟨hid, hw⟩ := NewPc.create_id hx
    refine ⟨fun id h => ?_, fun id h => ?_, fun ip h => ?_⟩
    · cases h; exact hid
    · cases h; exact hw
    · cases h; exact .inr he
  | ilock id c ip => exact ⟨fun _ h => h, fun _ h => (by cases h), fun _ h => .inl h⟩
  | back x => exact ⟨fun _ h => (by cases h), fun _ h => (by cases h), fun _ h => (by cases h)⟩

theorem Names.Ordered.goes {y : NewPc} (h : s.Ordered) (hg : Goes s (s.proc p) y)
    (hproc : s'.proc = Function.update s.proc p y) (hnext : s'.next = s.next)
    (hn : SameNodes s s') : s'.Ordered := by
  obtain ⟨hid, hwait, hnode⟩ := hg.keeps
  have hidp : ∀ q id, (s'.proc q).id = some id → (s.proc q).id = some id := by
    intro q id hq
    rw [hproc] at hq
    by_cases hqp : q = p
    · rw [hqp, Function.update_self] at hq
      rw [hqp]
      exact hid id hq
    · rwa [Function.update_of_ne hqp] at hq
  refine ⟨fun ip he => ?_, fun q ip hq => ?_, fun q id hq => ?_, fun ip => ?_, fun q r id hq hr => ?_,
    fun q id hq ip => ?_⟩
  · rw [hn.entry] at he
    exact hn.used ip (h.entry ip he)
  · apply hn.used
    rw [hproc] at hq
    by_cases hqp : q = p
    · rw [hqp, Function.update_self] at hq
      exact (hnode ip hq).elim (h.used p ip) (h.entry ip)
    · rw [Function.update_of_ne hqp] at hq
      exact h.used q ip hq
  · rw [hnext]
    exact h.below q id (hidp q id hq)
  · rw [hnext, hn.makers]
    exact h.makers ip
  · exact h.alone q r id (hidp q id hq) (hidp r id hr)
  · rw [hn.makers]
    rw [hproc] at hq
    by_cases hqp : q = p
    · rw [hqp, Function.update_self] at hq
      exact h.waiting p id (hwait id hq) ip
    · rw [Function.update_of_ne hqp] at hq
      exact h.waiting q id hq ip

theorem Names.Ordered.begin {c : NewCall} (h : s.Ordered)
    (hproc : s'.proc = Function.update s.proc p (.start s.next c)) (hnext : s'.next = s.next + 1)
    (hn : SameNodes s s') : s'.Ordered := by
  have hown : ∀ q, q = p → s'.proc q = .start s.next c := by
    intro q hq
    rw [hproc, hq, Function.update_self]
  have hother : ∀ q, q ≠ p → s'.proc q = s.proc q := by
    intro q hq
    rw [hproc, Function.update_of_ne hq]
  refine ⟨fun ip he => ?_, fun q ip hq => ?_, fun q id hq => ?_, fun ip => ?_, fun q r id hq hr => ?_,
    fun q id hq ip => ?_⟩
  · rw [hn.entry] at he
    exact hn.used ip (h.entry ip he)
  · by_cases hqp : q = p
    · rw [hown q hqp] at hq
      cases hq
    · rw [hother q hqp] at hq
      exact hn.used ip (h.used q ip hq)
  · rw [hnext]
    by_cases hqp : q = p
    · rw [hown q hqp] at hq
      cases hq
      omega
    · rw [hother q hqp] at hq
      have := h.below q id hq
      omega
  · rw [hnext, hn.makers]
    have := h.makers ip
    omega
  · -- the number of the new call is nobody else's
    have hnew : ∀ q r, (s'.proc q).id = some id → (s'.proc r).id = some id → q = p → r ≠ p → False := by
      intro q r hq hr hqp hrp
      rw [hown q hqp] at hq
      rw [hother r hrp] at hr
      have hid : s.next = id := Option.some.inj hq
      have := h.below r id hr
      omega
    by_cases hqp : q = p
    · by_cases hrp : r = p
      · rw [hqp, hrp]
      · exact (hnew q r hq hr hqp hrp).elim
    · by_cases hrp : r = p
      · exact (hnew r q hr hq hrp hqp).elim
      · rw [hother q hqp] at hq
        rw [hother r hrp] at hr
        exact h.alone q r id hq hr
  · rw [hn.makers]
    by_cases hqp : q = p
    · rw [hown q hqp] at hq
      have hid : s.next = id := Option.some.inj hq
      have := h.makers ip
      omega
    · rw [hother q hqp] at hq
      exact h.waiting q id hq ip

theorem Names.Ordered.alloc {id i : Nat} {c : NewCall} {x : Node} (h : s.Ordered)
    (hp : (s.proc p).create = some (id, c)) (hx : x.type ≠ .none ∧ x.maker = id)
    (hproc : s'.proc = Function.update s.proc p (.got id c i)) (hnext : s'.next = s.next)
    (hentry : s'.entry = some i) (hnode : s'.node = Function.update s.node i x) : s'.Ordered := by
  obtain ⟨hid, -⟩ := NewPc.create_id hp
  have hown : s'.proc p = .got id c i := by
    rw [hproc, Function.update_self]
  have hother : ∀ q, q ≠ p → s'.proc q = s.proc q := by
    intro q hq
    rw [hproc, Function.update_of_ne hq]
  have hself : s'.node i = x := by
    rw [hnode, Function.update_self]
  have hsame : ∀ ip, ip ≠ i → s'.node ip = s.node ip := by
    intro ip hip
    rw [hnode, Function.update_of_ne hip]
  have hids : ∀ q, (s'.proc q).id = (s.proc q).id := by
    intro q
    by_cases hq : q = p
    · rw [hq, hown, hid]
      rfl
    · rw [hother q hq]
  refine ⟨fun ip he => ?_, fun q ip hq => ?_, fun q id' hq => ?_, fun ip => ?_, fun q r id' hq hr => ?_,
    fun q id' hq ip => ?_⟩
  · rw [hentry] at he
    cases he
    rw [hself]
    exact hx.1
  · by_cases hip : ip = i
    · rw [hip, hself]
      exact hx.1
    · rw [hsame ip hip]
      by_cases hqp : q = p
      · rw [hqp, hown] at hq
        exact absurd (Option.some.inj hq).symm hip
      · rw [hother q hqp] at hq
        exact h.used q ip hq
  · rw [hnext]
    rw [hids q] at hq
    exact h.below q id' hq
  · rw [hnext]
    by_cases hip : ip = i
    · rw [hip, hself, hx.2]
      exact h.below p id hid
    · rw [hsame ip hip]
      exact h.makers ip
  · rw [hids q] at hq
    rw [hids r] at hr
    exact h.alone q r id' hq hr
  · by_cases hqp : q = p
    · rw [hqp, hown] at hq
      cases hq
    · rw [hother q hqp] at hq
      by_cases hip : ip = i
      · rw [hip, hself, hx.2]
        intro he
        rw [← he] at hq
        exact hqp (h.alone q p id (NewPc.waiting_id hq) hid)
      · rw [hsame ip hip]
        exact h.waiting q id' hq ip

theorem Names.Ordered.step (h : s.Ordered) (hs : newStep s a = some s') : s'.Ordered := by
  cases newStep_effect hs with
  | begin p c _ hproc hnext hn => exact h.begin hproc hnext hn
  | goes p y _ _ hg hproc hnext hn => exact h.goes hg hproc hnext hn
  | alloc p id c i x _ hp _ hx hproc hnext hentry hnode =>
    exact h.alloc hp hx hproc hnext hentry hnode
  | write hproc hnext hn =>
    refine ⟨fun ip he => ?_, fun q ip hq => ?_, fun q id hq => ?_, fun ip => ?_, fun q r id hq hr => ?_,
      fun q id hq ip => ?_⟩
    · rw [hn.entry] at he
      exact hn.used ip (h.entry ip he)
    · rw [hproc] at hq
      exact hn.used ip (h.used q ip hq)
    · rw [hproc] at hq
      rw [hnext]
      exact h.below q id hq
    · rw [hnext, hn.makers]
      exact h.makers ip
    · rw [hproc] at hq hr
      exact h.alone q r id hq hr
    · rw [hproc] at hq
      rw [hn.makers]
      exact h.waiting q id hq ip

/-- What other processes do leaves a process where it is, and its inode that of its maker. -/
theorem Foul.other (h : s.Ordered) (hf : Foul s p) (he : NewEffect s a s')
    (hproc : s'.proc p = s.proc p) : Foul s' p := by
  obtain ⟨id, old, ip, hf⟩ := hf
  -- its inode is in use, so no allocation takes it over
  have hused : (s.node ip).type ≠ .none := by
    apply h.used p ip
    rcases hf with hf | ⟨hf, -⟩ <;>
    · rw [hf]
      rfl
  have hmaker : (s'.node ip).maker = (s.node ip).maker := by
    cases he with
    | begin _ _ _ _ _ hn => exact hn.makers ip
    | goes _ _ _ _ _ _ _ hn => exact hn.makers ip
    | alloc _ _ _ i _ _ _ hfree _ _ _ _ hnode =>
      rw [hnode, Function.update_of_ne]
      intro hip
      rw [hip] at hused
      exact hused hfree
    | write _ _ hn => exact hn.makers ip
  exact ⟨id, old, ip, by rw [hproc, hmaker]; exact hf⟩

/-- Such a call goes on until it makes the link. -/
theorem Foul.step (h : s.Ordered) (hf : Foul s p) (hs : newStep s a = some s') :
    Clobbers s a ∨ Foul s' p := by
  have he := newStep_effect hs
  by_cases ha : a.proc = some p
  · obtain ⟨id, old, ip, hf⟩ := hf
    cases a with
    | begin q c =>
      cases ha
      -- a process inside a call does not begin another
      obtain ⟨hidle, -⟩ := Option.ite_none_right_eq_some.mp hs
      rcases hf with hf | ⟨hf, -⟩ <;>
      · rw [hf] at hidle
        cases hidle
    | namei q =>
      cases ha
      rcases hf with hf | ⟨hf, -⟩ <;> simp [newStep, hf, NewPc.symlink] at hs
    | lookup q i =>
      cases ha
      rcases hf with hf | ⟨hf, -⟩ <;> simp [newStep, hf, NewPc.create] at hs
    | ilock q =>
      cases ha
      rcases hf with hf | ⟨hf, -⟩
      · -- asked for a link, `create` returns any inode
        simp only [newStep, hf] at hs
        obtain ⟨-, hs⟩ := Option.ite_none_left_eq_some.mp hs
        rw [if_pos (.inl rfl)] at hs
        cases hs
        refine .inr ⟨id, old, ip, .inr ⟨Function.update_self _ _ _, .inl ?_⟩⟩
        show (Function.update s.node ip _ ip).maker ≠ id
        rw [Function.update_self]
        exact h.waiting _ id (by rw [hf]; rfl) ip
      · simp [newStep, hf] at hs
    | finish q =>
      cases ha
      rcases hf with hf | ⟨hf, hne⟩
      · simp [newStep, hf] at hs
      · exact .inl ⟨id, old, ip, hf, hne⟩
    | write _ _ => cases ha
  · right
    apply hf.other h he
    cases he with
    | begin q c hp hproc _ _ =>
      rw [hproc]
      by_cases hq : p = q
      · obtain ⟨id, old, ip, hf⟩ := hf
        rw [← hq] at hp
        rcases hf with hf | ⟨hf, -⟩ <;>
        · rw [hf] at hp
          cases hp
      · exact Function.update_of_ne hq _ _
    | goes q y hq _ _ hproc _ _ =>
      rw [hproc]
      exact Function.update_of_ne (fun hpq : p = q => ha (hpq ▸ hq)) _ _
    | alloc q id c i x _ hp _ _ hproc _ _ _ =>
      rw [hproc]
      by_cases hq : p = q
      -- an allocation is made by a call that has found no entry
      · obtain ⟨id', old, ip, hf⟩ := hf
        rw [← hq] at hp
        rcases hf with hf | ⟨hf, -⟩ <;>
        · rw [hf] at hp
          cases hp
      · exact Function.update_of_ne hq _ _
    | write hproc _ _ => rw [hproc]

theorem Foul.run : ∀ (as : List (NewAct P)) (s : Names P), s.Ordered → Foul s p →
    Lib.run newStep s as = some t → t.proc p = .idle →
    ¬ Lib.Meets newStep (fun s a => ¬ Clobbers s a) s as := by
  intro as
  induction as with
  | nil =>
    intro s _ hf hr hend _
    cases hr
    -- at the end of the run the call has returned
    obtain ⟨id, old, ip, hf⟩ := hf
    rcases hf with hf | ⟨hf, -⟩ <;>
    · rw [hf] at hend
      cases hend
  | cons a as ih =>
    intro s h hf hr hend hm
    obtain ⟨m, hs, hr⟩ := Lib.run_cons hr
    -- the step is none that makes the link, so the call still has it before it
    have hf' := (hf.step h hs).resolve_left hm.1
    exact ih m (h.step hs) hf' hr hend (hm.2 m hs)

theorem NewPc.create_symlink {x : NewPc} {id : Nat} {old : List UInt8}
    (h : x.create = some (id, .symlink old)) : x = .tested id old := by
  cases x with
  | start id' c => cases c <;> cases h
  | tested id' old' => cases h; rfl
  | idle => cases h
  | found _ _ _ => cases h
  | got _ _ _ => cases h

/-- Such a call comes from a search that finds the entry of another call, or makes a link
that is too small. -/
theorem Foul.back (h : s.Ordered) (hs : newStep s a = some s') (ho : FreshLink s a)
    (hf : Foul s' p) : Foul s p := by
  obtain ⟨id, old, ip, hf⟩ := hf
  have hold : ∀ hn : SameNodes s s', s'.proc p = s.proc p → Foul s p := by
    intro hn hproc
    rw [hproc, hn.makers] at hf
    exact ⟨id, old, ip, hf⟩
  cases newStep_effect hs with
  | begin q c hq hproc _ hn =>
    by_cases hpq : p = q
    · rw [hproc, hpq, Function.update_self] at hf
      rcases hf with hf | ⟨hf, -⟩ <;> cases hf
    · exact hold hn (by rw [hproc, Function.update_of_ne hpq])
  | goes q y _ hfound hg hproc _ hn =>
    by_cases hpq : p = q
    · subst hpq
      rw [hproc, Function.update_self] at hf
      rcases hf with hf | ⟨hf, hne⟩
      · obtain ⟨i, rfl⟩ := hfound _ _ _ hf
        rw [hf] at hg
        generalize hx : s.proc p = x at hg
        cases hg with
        | lookup hc he =>
          -- the search of `create` found an entry
          obtain ⟨hnone, -⟩ := ho id old (hx.trans (NewPc.create_symlink hc))
          rw [he] at hnone
          cases hnone
      · rw [hf] at hg
        generalize hx : s.proc p = x at hg
        cases hg with
        | ilock _ _ _ => exact ⟨id, old, ip, .inl hx⟩
    · exact hold hn (by rw [hproc, Function.update_of_ne hpq])
  | alloc q id' c i x ha hp hfree hx hproc _ _ hnode =>
    by_cases hpq : p = q
    · rw [hproc, hpq, Function.update_self] at hf
      rcases hf with hf | ⟨hf, hne | hlong⟩
      · cases hf
      · cases hf
        -- a call is the maker of the inode it allocates
        rw [hnode, Function.update_self] at hne
        exact absurd hx.2 hne
      · cases hf
        subst ha
        obtain ⟨-, hshort⟩ := ho id old (NewPc.create_symlink hp)
        omega
    · rw [hproc, Function.update_of_ne hpq] at hf
      rcases hf with hf | ⟨hf, hne⟩
      · exact ⟨id, old, ip, .inl hf⟩
      · have hip : ip ≠ i := by
          intro he
          -- the allocation of another call takes a free inode
          have hused := h.used p ip (by rw [hf]; rfl)
          rw [he] at hused
          exact hused hfree
        rw [hnode, Function.update_of_ne hip] at hne
        exact ⟨id, old, ip, .inr ⟨hf, hne⟩⟩
  | write hproc _ hn => exact hold hn (by rw [hproc])

omit [DecidableEq P] in
theorem Clobbers.foul (h : Clobbers s a) : ∃ p, Foul s p := by
  cases a with
  | finish p =>
    obtain ⟨id, old, ip, hp, hne⟩ := h
    exact ⟨p, id, old, ip, .inr ⟨hp, hne⟩⟩
  | begin _ _ => exact h.elim
  | namei _ => exact h.elim
  | lookup _ _ => exact h.elim
  | ilock _ => exact h.elim
  | write _ _ => exact h.elim

/-- A search that finds an entry leads to a link over it, and one for a long path to a link
that is too small. -/
theorem foul_of_found (hs : newStep s a = some s') (ho : ¬ FreshLink s a) : ∃ p, Foul s' p := by
  cases a with
  | lookup p i =>
    simp only [FreshLink, not_forall] at ho
    obtain ⟨id, old, hp, ho⟩ := ho
    simp only [newStep, hp, NewPc.create, lookupStep] at hs
    cases he : s.entry with
    | some ip =>
      rw [he] at hs
      cases hs
      exact ⟨p, id, old, ip, .inl (Function.update_self _ _ _)⟩
    | none =>
      rw [he] at hs
      obtain ⟨-, hs⟩ := Option.ite_none_right_eq_some.mp hs
      cases hs
      have hlong : 52 < old.length := Nat.lt_of_not_le fun hle => ho ⟨he, hle⟩
      exact ⟨p, id, old, i, .inr ⟨Function.update_self _ _ _, .inr hlong⟩⟩
  | begin _ _ => exact absurd trivial ho
  | namei _ => exact absurd trivial ho
  | ilock _ => exact absurd trivial ho
  | finish _ => exact absurd trivial ho
  | write _ _ => exact absurd trivial ho

theorem meets_absent : ∀ (as : List (NewAct P)) (s : Names P), s.Ordered →
    Lib.run newStep s as = some t → (∀ p, t.proc p = .idle) →
    Lib.Meets newStep (fun s a => ¬ Clobbers s a) s as → Lib.Meets newStep FreshLink s as := by
  intro as
  induction as with
  | nil => exact fun _ _ _ _ _ => trivial
  | cons a as ih =>
    intro s h hr hend hm
    obtain ⟨m, hs, hr⟩ := Lib.run_cons hr
    constructor
    · by_contra ho
      -- the link is made before the process is idle again
      obtain ⟨p, hf⟩ := foul_of_found hs ho
      exact hf.run as m (h.step hs) hr (hend p) (hm.2 m hs)
    · intro m' hm'
      rw [hs] at hm'
      cases hm'
      exact ih m (h.step hs) hr hend (hm.2 m hs)

theorem meets_clean : ∀ (as : List (NewAct P)) (s : Names P), s.Ordered → (∀ p, ¬ Foul s p) →
    Lib.Meets newStep FreshLink s as → Lib.Meets newStep (fun s a => ¬ Clobbers s a) s as := by
  intro as
  induction as with
  | nil => exact fun _ _ _ _ => trivial
  | cons a as ih =>
    intro s h hclean hm
    refine ⟨fun hc => ?_, fun m hs => ?_⟩
    · obtain ⟨p, hf⟩ := hc.foul
      exact hclean p hf
    · exact ih m (h.step hs) (fun p hf => hclean p (hf.back h hs hm.1)) (hm.2 m hs)

/-- No call is in progress; `new` names an inode in use, or nothing. -/
def Names.boot (entry : Option Nat) (type : Nat → FileType) (words : Nat → List UInt8) : Names P :=
  ⟨entry, fun ip => { type := type ip, words := words ip }, 1, fun _ => .idle⟩

omit [DecidableEq P] in
theorem boot_ordered (entry : Option Nat) (type : Nat → FileType) (words : Nat → List UInt8)
    (he : ∀ ip, entry = some ip → type ip ≠ .none) : (Names.boot entry type words : Names P).Ordered := by
  constructor
  · exact he
  · exact fun p ip h => by cases h
  · exact fun p id h => by cases h
  · exact fun ip => Nat.one_pos
  · exact fun p q id h => by cases h
  · exact fun p id h => by cases h

/-- In a run at whose end all calls have returned, every inode that `sys_symlink` makes a
link was allocated by that call, and nothing behind it is written, exactly when no `create`
of a `sys_symlink` finds an entry or has a path of more than 52 bytes. -/
theorem never_clobbers_iff (entry : Option Nat) (type : Nat → FileType) (words : Nat → List UInt8)
    (he : ∀ ip, entry = some ip → type ip ≠ .none) (as : List (NewAct P)) (t : Names P)
    (hr : Lib.run newStep (Names.boot entry type words) as = some t) (hend : ∀ p, t.proc p = .idle) :
    Lib.Meets newStep (fun s a => ¬ Clobbers s a) (Names.boot entry type words) as ↔
      Lib.Meets newStep FreshLink (Names.boot entry type words) as := by
  have hboot : (Names.boot entry type words : Names P).Ordered := boot_ordered entry type words he
  constructor
  · exact meets_absent as _ hboot hr hend
  · apply meets_clean as _ hboot
    intro p hf
    obtain ⟨id, old, ip, hf⟩ := hf
    rcases hf with hf | ⟨hf, -⟩ <;> cases hf

end Machine

/-- Two calls at the same time: the `sys_symlink` of process 0 allocates an inode, and the
`open` of process 1 finds it and gives up; then process 1 tries `sys_symlink` as well. -/
def linkFirst : List (NewAct Nat) :=
  [.begin 0 (.symlink [97]), .namei 0, .begin 1 .creat, .lookup 0 5, .lookup 1 6, .finish 0, .ilock 1,
    .begin 1 (.symlink [98]), .namei 1]

theorem never_clobbers_iff_linkFirst : ∃ t : Names Nat,
    Lib.run newStep (Names.boot none (fun _ => .none) (fun _ => [])) linkFirst = some t ∧
    (t.node 5).type = .T_SYM ∧
    (Lib.Meets newStep (fun s a => ¬ Clobbers s a) (Names.boot none (fun _ => .none) (fun _ => []) : Names Nat)
        linkFirst ↔
      Lib.Meets newStep FreshLink (Names.boot none (fun _ => .none) (fun _ => []) : Names Nat) linkFirst) := by
  refine ⟨_, rfl, rfl, ?_⟩
  apply never_clobbers_iff none (fun _ => .none) (fun _ => []) (fun ip h => by cases h) _ _ rfl
  intro p
  by_cases h0 : p = 0
  · subst h0
    rfl
  by_cases h1 : p = 1
  · subst h1
    rfl
  · simp [Names.goto, Names.setNode, Names.boot, h0, h1]

/-- A `sys_symlink` of process 0 that comes too late: process 1 has created a file of the
name behind its test, and written to it. -/
def createdBetween : List (NewAct Nat) :=
  [.begin 0 (.symlink [97]), .namei 0, .begin 1 .creat, .lookup 1 5, .finish 1, .write 5 [7],
    .lookup 0 6, .ilock 0]

/-- The file becomes a link, and its addresses are overwritten. -/
theorem symlink_clobbers : ∃ s t,
    Lib.run newStep (Names.boot none (fun _ => .none) (fun _ => [])) createdBetween = some s ∧
      newStep s (.finish 0) = some t ∧ Clobbers s (.finish 0) ∧
      (s.node 5).type = .T_FILE ∧ (s.node 5).words = [7] ∧
      (t.node 5).type = .T_SYM ∧ (t.node 5).words = [97] := by
  refine ⟨_, _, rfl, rfl, ⟨1, [97], 5, rfl, .inl ?_⟩, rfl, rfl, rfl, rfl⟩
  decide

end Xv6.File

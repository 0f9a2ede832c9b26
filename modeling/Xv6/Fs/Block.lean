import Mathlib

/- Disk blocks (`project3_filesystem/fs.h`) and the little-endian 32-bit words in
   them: block pointers, and the log header of `log.c`, whose words are `n` and
   `block[0]`, `block[1]`, .... -/
namespace Xv6.Fs

abbrev BSIZE : Nat := 512

abbrev Block := Fin BSIZE → UInt8

namespace Block

/-- A block of zeros. -/
def zero : Block := fun _ => 0

def byte (b : Block) (i : Nat) : Nat := if h : i < BSIZE then (b ⟨i, h⟩).toNat else 0

/-- `((uint*)data)[w]`. -/
def word (b : Block) (w : Nat) : Nat :=
  b.byte (4 * w) + 256 * b.byte (4 * w + 1) + 65536 * b.byte (4 * w + 2) +
    16777216 * b.byte (4 * w + 3)

/-- `((uint*)data)[w] = v`. -/
def setWord (b : Block) (w v : Nat) : Block := fun i =>
  if i.val / 4 = w then UInt8.ofNat (v / 256 ^ (i.val % 4)) else b i

theorem byte_setWord_other (b : Block) {w v i : Nat} (h : i / 4 ≠ w) :
    (b.setWord w v).byte i = b.byte i := by
  unfold byte
  split
  · simp [setWord, h]
  · rfl

theorem byte_setWord_same (b : Block) {w v i : Nat} (hw : w < 128) (h : i / 4 = w) :
    (b.setWord w v).byte i = v / 256 ^ (i % 4) % 256 := by
  have hi : i < BSIZE := by
    simp only [BSIZE]
    omega
  simp [byte, hi, setWord, h]

@[simp] theorem word_setWord_same (b : Block) {w v : Nat} (hw : w < 128) (hv : v < 2 ^ 32) :
    (b.setWord w v).word w = v := by
  have h0 := b.byte_setWord_same (v := v) hw (i := 4 * w) (by omega)
  have h1 := b.byte_setWord_same (v := v) hw (i := 4 * w + 1) (by omega)
  have h2 := b.byte_setWord_same (v := v) hw (i := 4 * w + 2) (by omega)
  have h3 := b.byte_setWord_same (v := v) hw (i := 4 * w + 3) (by omega)
  simp only [show 4 * w % 4 = 0 by omega, show (4 * w + 1) % 4 = 1 by omega,
    show (4 * w + 2) % 4 = 2 by omega, show (4 * w + 3) % 4 = 3 by omega] at h0 h1 h2 h3
  simp only [word, h0, h1, h2, h3]
  omega

theorem word_setWord_other (b : Block) {w w' v : Nat} (h : w' ≠ w) :
    (b.setWord w v).word w' = b.word w' := by
  simp only [word]
  rw [b.byte_setWord_other (by omega), b.byte_setWord_other (by omega),
    b.byte_setWord_other (by omega), b.byte_setWord_other (by omega)]

/-! ## The log header -/

/-- `block[i], ..., block[i + n - 1]`, from word `w` on. -/
def words (b : Block) : Nat → Nat → List Nat
  | _, 0 => []
  | w, n + 1 => b.word w :: words b (w + 1) n

def setWords (b : Block) : Nat → List Nat → Block
  | _, [] => b
  | w, v :: vs => setWords (b.setWord w v) (w + 1) vs

/-- The loop of `read_head`. -/
def header (b : Block) : List Nat := b.words 1 (b.word 0)

/-- The loop of `write_head`: the words behind the list keep their values. -/
def setHeader (b : Block) (lh : List Nat) : Block := (b.setWord 0 lh.length).setWords 1 lh

theorem word_setWords_other : ∀ (vs : List Nat) (b : Block) (w w' : Nat), w' < w →
    (b.setWords w vs).word w' = b.word w' := by
  intro vs
  induction vs with
  | nil => intro b w w' _; rfl
  | cons v vs ih =>
    intro b w w' h
    rw [setWords, ih _ _ _ (by omega), word_setWord_other _ (by omega)]

theorem words_setWords : ∀ (vs : List Nat) (b : Block) (w : Nat), w + vs.length ≤ 128 →
    (∀ v ∈ vs, v < 2 ^ 32) → (b.setWords w vs).words w vs.length = vs := by
  intro vs
  induction vs with
  | nil => intro b w _ _; rfl
  | cons v vs ih =>
    intro b w hw hv
    simp only [List.length_cons] at hw
    simp only [setWords, List.length_cons, words]
    rw [word_setWords_other _ _ _ _ (by omega),
      word_setWord_same _ (by omega) (hv v (by simp)),
      ih _ _ (by omega) (fun u hu => hv u (by simp [hu]))]

/-- What `write_head` has written, `read_head` reads. -/
theorem header_setHeader (b : Block) {lh : List Nat} (hn : lh.length < 128)
    (hv : ∀ v ∈ lh, v < 2 ^ 32) : (b.setHeader lh).header = lh := by
  have hlen : (b.setHeader lh).word 0 = lh.length := by
    rw [setHeader, word_setWords_other _ _ _ _ (by omega),
      word_setWord_same _ (by omega) (by omega)]
  rw [header, hlen]
  exact words_setWords lh _ 1 (by omega) hv

theorem header_setHeader_nil (b : Block) : (b.setHeader []).header = [] :=
  header_setHeader b (by simp) (by simp)

end Block

end Xv6.Fs

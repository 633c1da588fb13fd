import OsProjects.Lib.BlockRanges
import OsProjects.Lib.Bytes

/-!
# Block devices in flat files — the system calls under a block program

A program that keeps blocks in a regular file moves the offset of a descriptor and
reads or writes at it. `FileProg` is a tree of such calls and `OpenFile` what they act
on. `Prog.through rd wr` puts the calls `rd k` and `wr k b` in the place of the
transfers of a block program; `run_through` says that it does to the file what the
block program does to the blocks, as long as it stays `Within` them.

* `view len f` — the blocks of `len` bytes in a file;
* `OpenFile.read_block`, `OpenFile.write_block` — one transfer at a block's place;
* `FileProg.interleave` — two programs on one descriptor, one call a turn.
-/

namespace OsProjects

namespace Bytes

/-- Nothing lies behind the first `len` bytes. -/
def Sized (len : Nat) (b : Bytes) : Prop := ∀ i, len ≤ i → b i = 0

/-- The `len` bytes from `off` on. -/
def window (b : Bytes) (off len : Nat) : Bytes := fun i => if i < len then b (off + i) else 0

section Sized

variable {len : Nat} {b : Bytes}

theorem sized_zero (len : Nat) : Sized len zero := fun _ _ => rfl

theorem sized_window (b : Bytes) (off len : Nat) : Sized len (window b off len) :=
  fun _ hi => if_neg (Nat.not_lt.mpr hi)

theorem Sized.blit (h : Sized len b) {off n : Nat} (hn : off + n ≤ len) (src : Bytes) :
    Sized len (Bytes.blit b off n src) := fun i hi => by
  rw [blit_outside (Or.inr (by omega))]
  exact h i hi

theorem Sized.putRec {n k : Nat} {α : Type} (h : Sized len b) (L : Layout n α)
    (hk : (k + 1) * n ≤ len) (a : α) : Sized len (Bytes.putRec L b k a) :=
  h.blit (by rw [Nat.succ_mul] at hk; exact hk) _

theorem Sized.setBit (h : Sized len b) {bit : Nat} (hbit : bit / 8 < len) (value : Bool) :
    Sized len (Bytes.setBit b bit value) := fun i hi => by
  rw [Bytes.setBit, if_neg (by omega)]
  exact h i hi

end Sized

end Bytes

open Bytes

/-- A regular file that is open: its bytes, its size, and the offset of the descriptor.
What lies behind the end is zero, and shows once the file grows over it. -/
structure OpenFile where
  bytes : Bytes
  size : Nat
  offset : Nat
  zero_behind : Sized size bytes

namespace OpenFile

/-- `lseek(fd, pos, SEEK_SET)`. -/
def seek (f : OpenFile) (pos : Nat) : OpenFile := { f with offset := pos }

/-- What `read(fd, buf, len)` returns: the file may end before. -/
def readCount (f : OpenFile) (len : Nat) : Nat := min len (f.size - f.offset)

/-- `read(fd, buf, len)`: the file behind it. -/
def read (f : OpenFile) (len : Nat) : OpenFile := { f with offset := f.offset + f.readCount len }

/-- `write(fd, b, len)`: the file behind it, all bytes being written. -/
def write (f : OpenFile) (len : Nat) (b : Bytes) : OpenFile where
  bytes := blit f.bytes f.offset len b
  size := max f.size (f.offset + len)
  offset := f.offset + len
  zero_behind i hi := by
    rw [blit_outside (Or.inr (by omega))]
    exact f.zero_behind i (by omega)

/-- The file in blocks of `len` bytes. -/
def view (len : Nat) (f : OpenFile) : Store Bytes := fun k => window f.bytes (k * len) len

theorem sized_view (len : Nat) (f : OpenFile) (k : Nat) : Sized len (view len f k) :=
  sized_window _ _ _

@[simp] theorem view_seek (len : Nat) (f : OpenFile) (pos : Nat) :
    view len (f.seek pos) = view len f := rfl

@[simp] theorem view_read (len n : Nat) (f : OpenFile) : view len (f.read n) = view len f := rfl

variable {len k : Nat} {f : OpenFile}

/-- Where a block lies wholly in the file, it is read. -/
theorem read_block (hoff : f.offset = k * len) (hk : (k + 1) * len ≤ f.size) :
    f.readCount len = len ∧ window f.bytes f.offset (f.readCount len) = view len f k := by
  rw [Nat.succ_mul] at hk
  have hcount : f.readCount len = len := by rw [readCount]; omega
  rw [hcount, hoff]
  exact ⟨rfl, rfl⟩

/-- What a write at the place of block `k` leaves of the rest of the file. -/
structure Wrote (len k : Nat) (b : Bytes) (f f' : OpenFile) : Prop where
  view : view len f' = Function.update (view len f) k b
  size : f'.size = f.size
  behind : ∀ i, (k + 1) * len ≤ i → f'.bytes i = f.bytes i

/-- Where a block lies wholly in the file, it is replaced. -/
theorem write_block {b : Bytes} (hb : Sized len b) (hoff : f.offset = k * len)
    (hk : (k + 1) * len ≤ f.size) : Wrote len k b f (f.write len b) := by
  rw [Nat.succ_mul] at hk
  refine ⟨?_, ?_, fun i hi => ?_⟩
  · funext j i
    by_cases hi : i < len
    · by_cases hj : j = k
      · rw [hj, Function.update_self]
        show (if i < len then blit f.bytes f.offset len b (k * len + i) else 0) = b i
        rw [if_pos hi, hoff, blit_inside hi]
      · rw [Function.update_of_ne hj]
        show (if i < len then blit f.bytes f.offset len b (j * len + i) else 0) =
          if i < len then f.bytes (j * len + i) else 0
        rw [if_pos hi, if_pos hi, blit_outside]
        -- another block lies wholly in front of this one or behind it
        rcases Nat.lt_or_gt_of_ne hj with hlt | hgt
        · have hle : (j + 1) * len ≤ k * len := Nat.mul_le_mul_right len hlt
          rw [Nat.succ_mul] at hle
          omega
        · have hle : (k + 1) * len ≤ j * len := Nat.mul_le_mul_right len hgt
          rw [Nat.succ_mul] at hle
          omega
    · rw [sized_view len _ j i (by omega)]
      by_cases hj : j = k
      · rw [hj, Function.update_self, hb i (by omega)]
      · rw [Function.update_of_ne hj, sized_view len f j i (by omega)]
  · show max f.size (f.offset + len) = f.size
    omega
  · rw [Nat.succ_mul] at hi
    exact blit_outside (Or.inr (by omega))

end OpenFile

/-- A program that calls `lseek`, `read` and `write` on one descriptor. `lseek` says
whether it succeeded, the others how many bytes were transferred. -/
inductive FileProg (α : Type) : Type
  | done (a : α)
  | lseek (pos : Nat) (next : Bool → FileProg α)
  | read (len : Nat) (next : Nat → Bytes → FileProg α)
  | write (len : Nat) (b : Bytes) (next : Nat → FileProg α)

namespace FileProg

variable {α γ : Type}

/-- Sequential composition. -/
def bind : FileProg α → (α → FileProg γ) → FileProg γ
  | done a, g => g a
  | lseek pos next, g => lseek pos fun ok => (next ok).bind g
  | read len next, g => read len fun count buf => (next count buf).bind g
  | write len b next, g => write len b fun count => (next count).bind g

instance : Monad FileProg where
  pure := done
  bind := bind

/-- One call of a program. -/
def step : FileProg α → OpenFile → FileProg α × OpenFile
  | done a, f => (done a, f)
  | lseek pos next, f => (next true, f.seek pos)
  | read len next, f =>
    (next (f.readCount len) (window f.bytes f.offset (f.readCount len)), f.read len)
  | write len b next, f => (next len, f.write len b)

/-- The result and the file after a run. -/
def run : FileProg α → OpenFile → α × OpenFile
  | done a, f => (a, f)
  | lseek pos next, f => run (next true) (f.seek pos)
  | read len next, f =>
    run (next (f.readCount len) (window f.bytes f.offset (f.readCount len))) (f.read len)
  | write len b next, f => run (next len) (f.write len b)

theorem run_bind (p : FileProg α) (g : α → FileProg γ) (f : OpenFile) :
    run (p >>= g) f = run (g (run p f).1) (run p f).2 := by
  induction p generalizing f with
  | done a => rfl
  | lseek pos next ih => exact ih true _
  | read len next ih => exact ih _ _ _
  | write len b next ih => exact ih _ _

/-- Two programs take turns on one descriptor; `true` in the schedule is a call of the
first. -/
def interleave : List Bool → FileProg α → FileProg γ → OpenFile →
    FileProg α × FileProg γ × OpenFile
  | [], p, q, f => (p, q, f)
  | true :: sched, p, q, f => interleave sched (step p f).1 q (step p f).2
  | false :: sched, p, q, f => interleave sched p (step q f).1 (step q f).2

end FileProg

namespace Prog

variable {β α : Type} (rd : Nat → FileProg (Option β)) (wr : Nat → β → FileProg Bool)

/-- The block program with the calls `rd k` and `wr k b` for its transfers. -/
def through : Prog β α → FileProg α
  | done a => .done a
  | read k next => rd k >>= fun r => through (next r)
  | write k b next => wr k b >>= fun ok => through (next ok)

variable {rd wr} {ok : Nat → Prop} {good : β → Prop} {R : OpenFile → Store β → Prop}

/-- **A block program does to the file what it does to the blocks**, if each transfer it
makes does. -/
theorem run_through
    (hread : ∀ k f d, ok k → R f d →
      ((rd k).run f).1 = some (d k) ∧ R ((rd k).run f).2 d)
    (hwrite : ∀ k b f d, ok k → good b → R f d →
      ((wr k b).run f).1 = true ∧ R ((wr k b).run f).2 (Function.update d k b))
    {p : Prog β α} {f : OpenFile} {d : Store β} (hp : Within ok good p d) (hR : R f d) :
    ((p.through rd wr).run f).1 = (p.run d).1 ∧ R ((p.through rd wr).run f).2 (p.run d).2 := by
  induction p generalizing f d with
  | done a => exact ⟨rfl, hR⟩
  | read k next ih =>
    obtain ⟨hk, hrest⟩ := within_read.mp hp
    obtain ⟨hresult, hR'⟩ := hread k f d hk hR
    rw [through, FileProg.run_bind, hresult]
    exact ih _ hrest hR'
  | write k b next ih =>
    obtain ⟨hk, hb, hrest⟩ := within_write.mp hp
    obtain ⟨hresult, hR'⟩ := hwrite k b f d hk hb hR
    rw [through, FileProg.run_bind, hresult]
    exact ih _ hrest hR'

end Prog

end OsProjects

import Mathlib.Data.List.Basic
import Mathlib.Logic.Function.Basic
import Mathlib.Tactic.Common

namespace OpenFiles

-- Descriptors first to last - 1, files of at most cap elements, writes cut at chunk.
structure Limits where
  first : Nat
  last : Nat
  cap : Nat
  chunk : Nat

structure Table (F α : Type*) where
  files : F → List α
  descs : Nat → Option (F × Nat)

inductive Call (F α : Type*) where
  | open (f : F)
  | read (fd len : Nat)
  | write (fd : Nat) (data : List α)
  | close (fd : Nat)

-- The returned number and what was put into the caller's buffer.
structure Reply (α : Type*) where
  value : Int
  bytes : List α

section Steps

variable {F α : Type*} [DecidableEq F]

def overwrite (l : List α) (off : Nat) (data : List α) : List α :=
  l.take off ++ data ++ l.drop (off + data.length)

def Table.setDesc (t : Table F α) (fd : Nat) (d : Option (F × Nat)) : Table F α :=
  { t with descs := Function.update t.descs fd d }

def Table.setFile (t : Table F α) (f : F) (l : List α) : Table F α :=
  { t with files := Function.update t.files f l }

def stored (L : Limits) (off : Nat) (data : List α) : List α :=
  data.take (min (min data.length L.chunk) (L.cap - off))

inductive Step (L : Limits) : Call F α → Reply α → Table F α → Table F α → Prop where
  | opened {t f fd} : L.first ≤ fd → fd < L.last → t.descs fd = none →
      Step L (.open f) ⟨(fd : Int), []⟩ t (t.setDesc fd (some (f, 0)))
  | noneFree {t f} : (∀ fd, L.first ≤ fd → fd < L.last → t.descs fd ≠ none) →
      Step L (.open f) ⟨-1, []⟩ t t
  | read {t fd len f off bytes} : t.descs fd = some (f, off) →
      bytes = ((t.files f).drop off).take len →
      Step L (.read fd len) ⟨(bytes.length : Int), bytes⟩ t
        (t.setDesc fd (some (f, off + bytes.length)))
  | write {t fd data f off} : t.descs fd = some (f, off) → (off < L.cap ∨ data = []) →
      Step L (.write fd data) ⟨((stored L off data).length : Int), []⟩ t
        ((t.setFile f (overwrite (t.files f) off (stored L off data))).setDesc fd
          (some (f, off + (stored L off data).length)))
  | noRoom {t fd data f} : t.descs fd = some (f, L.cap) → data ≠ [] →
      Step L (.write fd data) ⟨-1, []⟩ t t
  | close {t fd d} : t.descs fd = some d → Step L (.close fd) ⟨0, []⟩ t (t.setDesc fd none)
  | readClosed {t fd len} : t.descs fd = none → Step L (.read fd len) ⟨-1, []⟩ t t
  | writeClosed {t fd data} : t.descs fd = none → Step L (.write fd data) ⟨-1, []⟩ t t
  | closeClosed {t fd} : t.descs fd = none → Step L (.close fd) ⟨-1, []⟩ t t

inductive Run (L : Limits) : List (Call F α × Reply α) → Table F α → Table F α → Prop where
  | nil (t) : Run L [] t t
  | snoc {tr c r t t' t''} : Run L tr t t' → Step L c r t' t'' → Run L (tr ++ [(c, r)]) t t''

end Steps

end OpenFiles

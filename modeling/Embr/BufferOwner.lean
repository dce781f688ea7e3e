import Embr.Lib.Ledger

/-!
# Buffers

`Buffer` of `core/protocol.hpp`: a heap block, or a pointer with a callback that
is called with it at the end. Whatever Buffers are made, moved and destroyed, a
block or a callback has one owner until it is freed or called, once.
-/

open Ledger
namespace Embr.BufferOwner

/-- Heap blocks, addresses and callbacks are numbered. -/
structure Buffer where
  owned : Option ℕ
  ptr : Option ℕ
  size : ℕ
  release : Option ℕ
  deriving DecidableEq

structure Region where
  callback : ℕ
  ptr : ℕ
  deriving DecidableEq

inductive Pointer
  | block (n : ℕ)
  | raw (address : ℕ)
  deriving DecidableEq

namespace Buffer

def default : Buffer := ⟨none, none, 0, none⟩

def get (b : Buffer) : Option Pointer :=
  match b.owned with
  | some n => some (.block n)
  | none => b.ptr.map .raw

def valid (b : Buffer) : Bool := b.get ≠ none && 0 < b.size

def released (b : Buffer) : Option Region :=
  match b.owned, b.ptr, b.release with
  | none, some ptr, some callback => some ⟨callback, ptr⟩
  | _, _, _ => none

def moved (other : Buffer) : Buffer × Buffer :=
  (⟨other.owned, other.ptr, other.size, other.release⟩, ⟨none, none, 0, none⟩)

end Buffer

/-- The Buffers there are, what was allocated and handed over so far, and what was called and
freed, oldest first. -/
structure Memory (ν : Type) where
  buffers : ν → Option Buffer
  blocks : ℕ
  callbacks : ℕ
  regions : List Region
  calls : List Region
  freed : List ℕ

inductive Command (ν : Type)
  | default (x : ν)
  | heap (x : ν) (n : ℕ)
  | external (x : ν) (ptr : Option ℕ) (n : ℕ) (release : Bool)
  | moveConstruct (x other : ν)
  | moveAssign (x other : ν)
  | destroy (x : ν)

section commands
variable {ν : Type} [DecidableEq ν]

namespace Memory

def init : Memory ν := ⟨fun _ => none, 0, 0, [], [], []⟩

def set (m : Memory ν) (x : ν) (b : Option Buffer) : Memory ν :=
  { m with buffers := Function.update m.buffers x b }

omit [DecidableEq ν] in
def dispose (m : Memory ν) (b : Buffer) : Memory ν :=
  { m with calls := m.calls ++ b.released.toList, freed := m.freed ++ b.owned.toList }

def heap (m : Memory ν) (x : ν) (n : ℕ) : Memory ν :=
  { m with blocks := m.blocks + 1 }.set x (some ⟨some m.blocks, none, n, none⟩)

def external (m : Memory ν) (x : ν) (ptr : Option ℕ) (n : ℕ) (release : Bool) : Memory ν :=
  let b : Buffer := ⟨none, ptr, n, if release then some m.callbacks else none⟩
  { m with callbacks := m.callbacks + 1, regions := m.regions ++ b.released.toList }.set x (some b)

def moveConstruct (m : Memory ν) (x y : ν) (other : Buffer) : Memory ν :=
  (m.set x (some other.moved.1)).set y (some other.moved.2)

def moveAssign (m : Memory ν) (x y : ν) (this other : Buffer) : Memory ν :=
  if x ≠ y then (m.dispose this).moveConstruct x y other else m

def destroy (m : Memory ν) (x : ν) (this : Buffer) : Memory ν := (m.dispose this).set x none

end Memory

/-- A command runs if the Buffers it makes are new and those it uses are there. -/
def step (m : Memory ν) : Command ν → Option (Memory ν)
  | .default x =>
    match m.buffers x with
    | none => some (m.set x (some .default))
    | some _ => none
  | .heap x n =>
    match m.buffers x with
    | none => some (m.heap x n)
    | some _ => none
  | .external x ptr n release =>
    match m.buffers x with
    | none => some (m.external x ptr n release)
    | some _ => none
  | .moveConstruct x y =>
    match m.buffers x, m.buffers y with
    | none, some other => some (m.moveConstruct x y other)
    | _, _ => none
  | .moveAssign x y =>
    match m.buffers x, m.buffers y with
    | some this, some other => some (m.moveAssign x y this other)
    | _, _ => none
  | .destroy x =>
    match m.buffers x with
    | some this => some (m.destroy x this)
    | none => none

def run (m : Memory ν) : List (Command ν) → Option (Memory ν)
  | [] => some m
  | c :: cs => (step m c).bind fun m => run m cs

inductive Does (m : Memory ν) : Command ν → Memory ν → Prop
  | default {x : ν} : m.buffers x = none → Does m (.default x) (m.set x (some .default))
  | heap {x : ν} {n : ℕ} : m.buffers x = none → Does m (.heap x n) (m.heap x n)
  | external {x : ν} {ptr : Option ℕ} {n : ℕ} {release : Bool} : m.buffers x = none →
      Does m (.external x ptr n release) (m.external x ptr n release)
  | moveConstruct {x y : ν} {other : Buffer} : m.buffers x = none → m.buffers y = some other →
      Does m (.moveConstruct x y) (m.moveConstruct x y other)
  | moveAssign {x y : ν} {this other : Buffer} : m.buffers x = some this →
      m.buffers y = some other → Does m (.moveAssign x y) (m.moveAssign x y this other)
  | destroy {x : ν} {this : Buffer} : m.buffers x = some this →
      Does m (.destroy x) (m.destroy x this)

theorem step_does {m m' : Memory ν} {c : Command ν} (h : step m c = some m') : Does m c m' := by
  cases c with
  | default x =>
    rw [step] at h
    split at h <;> cases h
    exact .default ‹_›
  | heap x n =>
    rw [step] at h
    split at h <;> cases h
    exact .heap ‹_›
  | external x ptr n release =>
    rw [step] at h
    split at h <;> cases h
    exact .external ‹_›
  | moveConstruct x y =>
    rw [step] at h
    split at h <;> cases h
    exact .moveConstruct ‹_› ‹_›
  | moveAssign x y =>
    rw [step] at h
    split at h <;> cases h
    exact .moveAssign ‹_› ‹_›
  | destroy x =>
    rw [step] at h
    split at h <;> cases h
    exact .destroy ‹_›

variable {τ : Type} {f : Buffer → Option τ} {m m' : Memory ν} {c : Command ν} {cs : List (Command ν)}
  {x y : ν} {b this other : Buffer} {r : Region} {n : ℕ}

def held (f : Buffer → Option τ) (m : Memory ν) : ν → Option τ := fun x => (m.buffers x).bind f

def Memory.Owns (m : Memory ν) (x : ν) (r : Region) : Prop := held Buffer.released m x = some r

def Memory.OwnsBlock (m : Memory ν) (x : ν) (n : ℕ) : Prop := held Buffer.owned m x = some n

structure Balanced (m : Memory ν) : Prop where
  regions : Sound (held Buffer.released m) m.regions m.calls
  blocks : Sound (held Buffer.owned m) (List.range m.blocks) m.freed
  fresh : ∀ r ∈ m.regions, r.callback < m.callbacks

omit [DecidableEq ν] in
theorem held_eq (h : m.buffers x = some b) : held f m x = f b := by
  rw [held, h]
  rfl

omit [DecidableEq ν] in
theorem held_none (h : m.buffers x = none) : held f m x = none := by
  rw [held, h]
  rfl

@[simp] theorem held_set (o : Option Buffer) :
    held f (m.set x o) = Function.update (held f m) x (o.bind f) := by
  funext z
  by_cases hz : z = x
  · subst hz
    simp [held, Memory.set]
  · simp [held, Memory.set, hz]

omit [DecidableEq ν] in
@[simp] theorem held_dispose : held f (m.dispose b) = held f m := rfl

theorem held_moveConstruct (hother : m.buffers y = some other) (hf : f other.moved.1 = f other)
    (hnone : f other.moved.2 = none) : held f (m.moveConstruct x y other) =
      Function.update (Function.update (held f m) x (held f m y)) y none := by
  simp only [Memory.moveConstruct, held_set, Option.bind_some, hf, hnone, held_eq hother]

omit [DecidableEq ν] in
theorem Balanced.init : Balanced (Memory.init : Memory ν) :=
  ⟨Sound.empty, Sound.empty, nofun⟩

theorem held_heap : held f (m.heap x n) =
    Function.update (held f m) x (f ⟨some m.blocks, none, n, none⟩) := held_set _

theorem held_external {ptr : Option ℕ} {release : Bool} : held f (m.external x ptr n release) =
    Function.update (held f m) x (f ⟨none, ptr, n, if release then some m.callbacks else none⟩) :=
  held_set _

theorem update_held_none (hx : m.buffers x = none) :
    Function.update (held f m) x none = held f m := by
  conv_lhs => rw [← held_none (f := f) hx]
  exact Function.update_eq_self x _

omit [DecidableEq ν] in
theorem disposed (hx : m.buffers x = some this) :
    (m.dispose this).calls = m.calls ++ (held Buffer.released m x).toList ∧
      (m.dispose this).freed = m.freed ++ (held Buffer.owned m x).toList := by
  rw [held_eq hx, held_eq hx]
  exact ⟨rfl, rfl⟩

namespace Balanced

theorem default (h : Balanced m) (hx : m.buffers x = none) :
    Balanced (m.set x (some .default)) := by
  refine ⟨?_, ?_, h.fresh⟩
  · rw [held_set, Option.bind_some]
    exact (update_held_none hx).symm ▸ h.regions
  · rw [held_set, Option.bind_some]
    exact (update_held_none hx).symm ▸ h.blocks

theorem heap (h : Balanced m) (hx : m.buffers x = none) : Balanced (m.heap x n) := by
  refine ⟨?_, ?_, h.fresh⟩
  · rw [held_heap]
    exact (update_held_none hx).symm ▸ h.regions
  · rw [held_heap]
    change Sound _ (List.range (m.blocks + 1)) _
    rw [List.range_succ]
    refine h.blocks.make (held_none hx) fun k hk => ?_
    cases hk
    simp

theorem external (h : Balanced m) (hx : m.buffers x = none) {ptr : Option ℕ} {release : Bool} :
    Balanced (m.external x ptr n release) := by
  refine ⟨?_, ?_, ?_⟩
  · rw [held_external]
    refine h.regions.make (held_none hx) fun r hr hold => ?_
    have hnew := h.fresh r hold
    cases ptr <;> cases release <;> cases hr
    exact Nat.lt_irrefl _ hnew
  · rw [held_external]
    exact (update_held_none hx).symm ▸ h.blocks
  · intro r hr
    rcases List.mem_append.mp hr with hr | hr
    · exact Nat.lt_succ_of_lt (h.fresh r hr)
    · cases ptr <;> cases release <;> cases Option.mem_toList.mp hr
      exact Nat.lt_succ_self _

theorem moveConstruct (h : Balanced m) (hx : m.buffers x = none) (hy : m.buffers y = some other) :
    Balanced (m.moveConstruct x y other) := by
  refine ⟨?_, ?_, h.fresh⟩
  · rw [held_moveConstruct hy rfl rfl]
    exact h.regions.shift (held_none hx)
  · rw [held_moveConstruct hy rfl rfl]
    exact h.blocks.shift (held_none hx)

theorem moveAssign (h : Balanced m) (hx : m.buffers x = some this) (hy : m.buffers y = some other) :
    Balanced (m.moveAssign x y this other) := by
  have hdisposed := disposed hx
  rw [Memory.moveAssign]
  split_ifs with hxy
  · have hother : (m.dispose this).buffers y = some other := hy
    refine ⟨?_, ?_, h.fresh⟩
    · rw [held_moveConstruct hother rfl rfl, held_dispose]
      change Sound _ m.regions (m.dispose this).calls
      rw [hdisposed.1]
      exact h.regions.replace hxy
    · rw [held_moveConstruct hother rfl rfl, held_dispose]
      change Sound _ (List.range m.blocks) (m.dispose this).freed
      rw [hdisposed.2]
      exact h.blocks.replace hxy
  · exact h

theorem destroy (h : Balanced m) (hx : m.buffers x = some this) : Balanced (m.destroy x this) := by
  have hdisposed := disposed hx
  refine ⟨?_, ?_, h.fresh⟩
  · rw [Memory.destroy, held_set, held_dispose]
    change Sound _ m.regions (m.dispose this).calls
    rw [hdisposed.1]
    exact h.regions.spend x
  · rw [Memory.destroy, held_set, held_dispose]
    change Sound _ (List.range m.blocks) (m.dispose this).freed
    rw [hdisposed.2]
    exact h.blocks.spend x

theorem step (h : Balanced m) (hstep : step m c = some m') : Balanced m' := by
  cases step_does hstep with
  | default hx => exact h.default hx
  | heap hx => exact h.heap hx
  | external hx => exact h.external hx
  | moveConstruct hx hy => exact h.moveConstruct hx hy
  | moveAssign hx hy => exact h.moveAssign hx hy
  | destroy hx => exact h.destroy hx

theorem run (h : Balanced m) (hrun : run m cs = some m') : Balanced m' := by
  induction cs generalizing m with
  | nil =>
    cases hrun
    exact h
  | cons c cs ih =>
    obtain ⟨u, hstep, hrest⟩ := Option.bind_eq_some_iff.mp hrun
    exact ih (h.step hstep) hrest

end Balanced

/-- The Buffer is destroyed, or another one is moved into it. -/
def Command.Ends : Command ν → ν → Prop
  | .moveAssign x other, z => x = z ∧ x ≠ other
  | .destroy x, z => x = z
  | _, _ => False

/-- The Buffer is moved into another one. -/
def Command.MovesFrom : Command ν → ν → Prop
  | .moveConstruct _ other, z => other = z
  | .moveAssign x other, z => other = z ∧ x ≠ other
  | _, _ => False

def ended (f : Buffer → Option τ) (m : Memory ν) : Command ν → List τ
  | .moveAssign x other => if x ≠ other then (held f m x).toList else []
  | .destroy x => (held f m x).toList
  | _ => []

theorem mem_ended {t : τ} : t ∈ ended f m c ↔ ∃ x, c.Ends x ∧ held f m x = some t := by
  cases c with
  | moveAssign x other =>
    rw [ended]
    split_ifs with hx
    · simp [Command.Ends, hx]
    · simp [Command.Ends, hx]
  | destroy x => simp [ended, Command.Ends]
  | default x => simp [ended, Command.Ends]
  | heap x n => simp [ended, Command.Ends]
  | external x ptr n release => simp [ended, Command.Ends]
  | moveConstruct x other => simp [ended, Command.Ends]

theorem step_ends (hstep : step m c = some m') :
    m'.calls = m.calls ++ ended Buffer.released m c ∧ m'.freed = m.freed ++ ended Buffer.owned m c := by
  cases step_does hstep with
  | @moveAssign x y this other hx hy =>
    rw [Memory.moveAssign, ended, ended]
    split_ifs
    · exact disposed hx
    · simp
  | destroy hx => exact disposed hx
  | default | heap | external | moveConstruct =>
    exact ⟨(List.append_nil _).symm, (List.append_nil _).symm⟩

theorem moveConstruct_left : (m.moveConstruct x y other).buffers y = some .default :=
  Function.update_self ..

theorem step_moved (hstep : step m c = some m') (hc : c.MovesFrom y) :
    m'.buffers y = some .default := by
  cases step_does hstep with
  | moveConstruct hx hother =>
    cases hc
    exact moveConstruct_left
  | moveAssign hx hother =>
    obtain ⟨rfl, hne⟩ := hc
    rw [Memory.moveAssign, if_pos hne]
    exact moveConstruct_left
  | default | heap | external | destroy => exact hc.elim

/-- In every program each region and each heap block has one owner until it is released, which
happens once, when that owner ends; and a Buffer that was moved from is not valid. -/
theorem buffers_linear (cs : List (Command ν)) (m : Memory ν) (hrun : run .init cs = some m) :
    (∀ x y r, m.Owns x r → m.Owns y r → x = y) ∧
      (∀ r ∈ m.regions, (∃ x, m.Owns x r) ∧ m.calls.count r = 0 ∨
        (¬ ∃ x, m.Owns x r) ∧ m.calls.count r = 1) ∧
      (∀ x y n, m.OwnsBlock x n → m.OwnsBlock y n → x = y) ∧
      (∀ n < m.blocks, (∃ x, m.OwnsBlock x n) ∧ m.freed.count n = 0 ∨
        (¬ ∃ x, m.OwnsBlock x n) ∧ m.freed.count n = 1) ∧
      ∀ c m', step m c = some m' →
        (∃ rs, m'.calls = m.calls ++ rs ∧ ∀ r, r ∈ rs ↔ ∃ x, c.Ends x ∧ m.Owns x r) ∧
        (∃ ns, m'.freed = m.freed ++ ns ∧ ∀ n, n ∈ ns ↔ ∃ x, c.Ends x ∧ m.OwnsBlock x n) ∧
        ∀ y, c.MovesFrom y → ∃ b, m'.buffers y = some b ∧ b.valid = false := by
  have hm : Balanced m := Balanced.init.run hrun
  refine ⟨hm.regions.apart, fun r => hm.regions.held_or_spent, hm.blocks.apart,
    fun n hn => hm.blocks.held_or_spent (List.mem_range.mpr hn), fun c m' hstep => ?_⟩
  obtain ⟨hcalls, hfreed⟩ := step_ends hstep
  exact ⟨⟨_, hcalls, fun _ => mem_ended⟩, ⟨_, hfreed, fun _ => mem_ended⟩,
    fun y hy => ⟨_, step_moved hstep hy, rfl⟩⟩

end commands

/-- A region that is moved into another Buffer, and the first one destroyed. -/
def movedOut : List (Command ℕ) :=
  [.external 0 (some 7) 5 true, .heap 1 3, .moveAssign 1 0, .destroy 0]

theorem movedOut_linear : ∃ m, run .init movedOut = some m ∧ m.calls = [] ∧ m.freed = [0] ∧
    (∀ r ∈ m.regions, (∃ x, m.Owns x r) ∧ m.calls.count r = 0 ∨
      (¬ ∃ x, m.Owns x r) ∧ m.calls.count r = 1) :=
  ⟨_, rfl, rfl, rfl, (buffers_linear movedOut _ rfl).2.1⟩

example : (run .init ([.external 0 (some 2) 5 true, .external 1 (some 7) 5 true,
      .moveConstruct 2 1, .moveAssign 0 2, .destroy 2, .destroy 1, .default 3, .moveAssign 0 3,
      .destroy 3, .destroy 0, .external 4 (some 9) 5 true, .destroy 4] : List (Command ℕ))).map
    (fun m => m.calls.map Region.ptr) = some [2, 7, 9] := by decide

end Embr.BufferOwner

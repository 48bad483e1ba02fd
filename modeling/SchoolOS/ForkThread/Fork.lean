import Mathlib.Data.Multiset.AddSub
import SchoolOS.ForkThread.Input

/-!
# The process tree

Reference: `main` of `Assignment3-2/fork.c`.

The root process writes the pairs into 64 pipes and forks one process. That process and all its
descendants run one loop of six forks, in which a child goes on with the next round of its parent. A
process then reads the pair of its own pipe, adds what its children pass by `exit`, in the order in
which `wait` reaps them, and exits itself. The root prints what the first process passes.

`System` is the state of all processes and `Step` one step of any of them. A process is at the start
of a round (`forking`), between its two reads (`reading`), in the loop of `wait` (`reaping`), or a
zombie with a status (`exited`). The lines that a process appends to the file are left out, since
the root process has read the file before. The calls of `fork` succeed, and a process that exits
passes the low byte of its sum in the second byte of the status.
-/

namespace SchoolOS.ForkThread.Fork

/-! ## The root process -/

/-- A pipe: the numbers in it, and whether a process can still write to it. -/
structure Pipe where
  data : List ℤ
  writer : Bool

/-- `read(pipe, &old, sizeof(int))`: the value of the variable after the call. A process blocks on
an empty pipe with a writer, and the variable is left as it is at the end of a pipe without one. -/
def Pipe.read (old : ℤ) (q : Pipe) : Option (ℤ × Pipe) :=
  match q.data with
  | n :: rest => some (n, { q with data := rest })
  | [] => if q.writer then none else some (old, q)

theorem Pipe.read_of_data {q : Pipe} {n : ℤ} {rest : List ℤ} (h : q.data = n :: rest) (old : ℤ) :
    q.read old = some (n, { q with data := rest }) := by
  rw [Pipe.read, h]

/-- The variables of the root process. -/
structure Root where
  pipes : ℕ → Pipe
  num1 : ℤ
  num2 : ℤ

/-- The two calls of `write` and the call of `close` for the pipe `i`. -/
def Root.write (m : Root) (i : ℕ) : Root :=
  { m with pipes := Function.update m.pipes i ⟨(m.pipes i).data ++ [m.num1, m.num2], false⟩ }

/-- The loop that fills the pipes, with `n` rounds left at the pipe `i`. -/
def fillPipes (file : List ℤ) : (n i : ℕ) → Root → Root
  | 0, _, m => m
  | n + 1, i, m =>
    match fscanf file (2 * i) with
    | [] => m
    | [a] => fillPipes file n (i + 1) ({ m with num1 := a }.write i)
    | a :: b :: _ => fillPipes file n (i + 1) ({ m with num1 := a, num2 := b }.write i)

/-- The root process when it forks. Its two numbers were not initialised before the loop. -/
def root (file : List ℤ) (num1 num2 : ℤ) : Root :=
  fillPipes file maxProcesses 0 ⟨fun _ => ⟨[], true⟩, num1, num2⟩

theorem fillPipes_pipes (file : List ℤ) (n i : ℕ) (m : Root) (h : 2 * (i + n) ≤ file.length)
    (hempty : ∀ k, i ≤ k → (m.pipes k).data = []) (k : ℕ) :
    ((fillPipes file n i m).pipes k).data =
      if i ≤ k ∧ k < i + n then [num file (2 * k), num file (2 * k + 1)] else (m.pipes k).data := by
  induction n generalizing i m with
  | zero =>
    rw [if_neg (by omega)]
    rfl
  | succ n ih =>
    rw [fillPipes, fscanf_eq (by omega)]
    dsimp only
    rw [ih (i + 1) _ (by omega)]
    · by_cases hk : k = i
      · subst hk
        simp [Root.write, hempty k (le_refl k)]
      · have hiff : i + 1 ≤ k ∧ k < i + 1 + n ↔ i ≤ k ∧ k < i + (n + 1) := by omega
        simp only [hiff, Root.write, Function.update_of_ne hk]
    · intro j hj
      have hne : j ≠ i := by omega
      simp only [Root.write, Function.update_of_ne hne]
      exact hempty j (by omega)

theorem root_pipes {file : List ℤ} (num1 num2 : ℤ) (h : maxProcesses * 2 ≤ file.length) {k : ℕ}
    (hk : k < maxProcesses) :
    ((root file num1 num2).pipes k).data = [num file (2 * k), num file (2 * k + 1)] := by
  rw [root, fillPipes_pipes _ _ _ _ (by omega) (fun _ _ => rfl), if_pos (by omega)]

/-! ## The processes -/

/-- Where a process is in the program. -/
inductive Pc
  | forking (i : ℕ)
  | reading
  | reaping (sum : ℤ)
  | exited (status : ℤ)
deriving DecidableEq

/-- A process. -/
structure Proc where
  pid : ℕ
  ppid : ℕ
  idx : ℕ
  num1 : ℤ
  num2 : ℤ
  pc : Pc
deriving DecidableEq

/-- The processes below the root process, the pipes, the process id that the next `fork` returns,
which process has read which pair, and what the root process has printed. -/
structure System where
  procs : Multiset Proc
  pipes : ℕ → Pipe
  nextPid : ℕ
  reads : Multiset (ℕ × ℕ)
  printed : Option ℤ

/-- The state after the first `fork`. -/
def start (file : List ℤ) (num1 num2 : ℤ) : System where
  procs := {⟨1, 0, 0, (root file num1 num2).num1, (root file num1 num2).num2, .forking 0⟩}
  pipes := (root file num1 num2).pipes
  nextPid := 2
  reads := 0
  printed := none

/-- `log2(MAX_PROCESSES)`. -/
def rounds : ℕ := 6

/-- A step of one process. -/
inductive Step : System → System → Prop
  /-- `if (!fork()) idx += 1 << i;` -/
  | fork {s : System} {p : Proc} {M : Multiset Proc} {i : ℕ} (hs : s.procs = p ::ₘ M)
      (hp : p.pc = .forking i) (hi : i < rounds) :
      Step s { s with
        procs := { p with pc := .forking (i + 1) } ::ₘ
          { p with
            pid := s.nextPid, ppid := p.pid, idx := p.idx + 2 ^ i
            pc := .forking (i + 1) } ::ₘ M
        nextPid := s.nextPid + 1 }
  /-- `read(pipes[idx][0], &num1, sizeof(int));` -/
  | readFirst {s : System} {p : Proc} {M : Multiset Proc} {i : ℕ} {n : ℤ} {q : Pipe}
      (hs : s.procs = p ::ₘ M) (hp : p.pc = .forking i) (hi : ¬ i < rounds)
      (hq : (s.pipes p.idx).read p.num1 = some (n, q)) :
      Step s { s with
        procs := { p with num1 := n, pc := .reading } ::ₘ M
        pipes := Function.update s.pipes p.idx q }
  /-- `read(pipes[idx][0], &num2, sizeof(int)); sum = num1 + num2;` -/
  | readSecond {s : System} {p : Proc} {M : Multiset Proc} {n : ℤ} {q : Pipe}
      (hs : s.procs = p ::ₘ M) (hp : p.pc = .reading)
      (hq : (s.pipes p.idx).read p.num2 = some (n, q)) :
      Step s { s with
        procs := { p with num2 := n, pc := .reaping (toInt (p.num1 + n)) } ::ₘ M
        pipes := Function.update s.pipes p.idx q
        reads := (p.pid, p.idx) ::ₘ s.reads }
  /-- `wait` returns a child, `sum += exit_value >> 8;` -/
  | reap {s : System} {p c : Proc} {M : Multiset Proc} {sum status : ℤ}
      (hs : s.procs = p ::ₘ c ::ₘ M) (hp : p.pc = .reaping sum) (hc : c.pc = .exited status)
      (hpid : c.ppid = p.pid) :
      Step s { s with
        procs := { p with pc := .reaping (toInt (sum + status / 2 ^ 8)) } ::ₘ M }
  /-- `wait` fails without a child, `exit(sum);` -/
  | exit {s : System} {p : Proc} {M : Multiset Proc} {sum : ℤ} (hs : s.procs = p ::ₘ M)
      (hp : p.pc = .reaping sum) (hno : ∀ c ∈ M, c.ppid ≠ p.pid) :
      Step s { s with procs := { p with pc := .exited (sum % 2 ^ 8 * 2 ^ 8) } ::ₘ M }
  /-- The root process: `wait(&exit_value);` and `printf` of `exit_value >> 8`. -/
  | print {s : System} {c : Proc} {M : Multiset Proc} {status : ℤ} (hs : s.procs = c ::ₘ M)
      (hc : c.pc = .exited status) (hroot : c.ppid = 0) :
      Step s { s with procs := M, printed := some (status / 2 ^ 8) }

end SchoolOS.ForkThread.Fork

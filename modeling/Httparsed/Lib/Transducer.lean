import Mathlib.Data.List.Basic

/-!
# Incremental readers: symbol-driven transducers that may halt

A `Transducer` reads one symbol at a time, knows the position it reads at, writes a list of outputs
and either goes on (`more`) or halts with a verdict. A run over a finite word ends `live` (the word
was too short to decide) or `halted`, with the symbols that were not read. Everything an incremental
parser owes its caller is a statement about such runs:

* `run_append`: a run may be cut anywhere, so a halted run is final (`halted_append`) and the outputs
  of a prefix are a prefix of the outputs (`run_fst_prefix`);
* `run_inv`: what one step preserves holds where the run ends;
* `live_iff_viable`: where every reachable state can still be completed, a word is left undecided
  exactly when it is a proper prefix of an accepted one;
* `run_seq`: one reader after another.
-/

namespace Transducer

universe u

/-- What one step leads to. -/
inductive Next (σ ν : Type u) where
  | more (s : σ)
  | halt (v : ν)
  deriving DecidableEq, Repr

/-- What a whole run leads to; `rest` is what the halted reader did not look at. -/
inductive Outcome (σ ι ν : Type u) where
  | live (s : σ)
  | halted (v : ν) (rest : List ι)
  deriving DecidableEq, Repr

/-- `step p s c` reads the symbol `c` at position `p` in state `s`. -/
abbrev Step (σ ι ο ν : Type u) := Nat → σ → ι → List ο × Next σ ν

variable {σ τ ι ο ν ε : Type u}

/-- Read `w` from state `s`, its first symbol standing at position `p`. -/
def run (step : Step σ ι ο ν) : Nat → σ → List ι → List ο × Outcome σ ι ν
  | _, s, [] => ([], .live s)
  | p, s, c :: cs =>
    match step p s c with
    | (o, .more s') => (o ++ (run step (p + 1) s' cs).1, (run step (p + 1) s' cs).2)
    | (o, .halt v) => (o, .halted v cs)

/-- A run whose first outputs `o` are already known. -/
def prepend (o : List ο) (r : List ο × Outcome σ ι ν) : List ο × Outcome σ ι ν := (o ++ r.1, r.2)

@[simp] theorem prepend_nil (r : List ο × Outcome σ ι ν) : prepend [] r = r := rfl

@[simp] theorem prepend_fst (o : List ο) (r : List ο × Outcome σ ι ν) : (prepend o r).1 = o ++ r.1 := rfl

@[simp] theorem prepend_snd (o : List ο) (r : List ο × Outcome σ ι ν) : (prepend o r).2 = r.2 := rfl

theorem prepend_prepend (o o' : List ο) (r : List ο × Outcome σ ι ν) :
    prepend o (prepend o' r) = prepend (o ++ o') r := by
  simp [prepend]

variable {step : Step σ ι ο ν}

@[simp] theorem run_nil (p : Nat) (s : σ) : run step p s [] = ([], .live s) := rfl

theorem run_more {p : Nat} {s s' : σ} {c : ι} {o : List ο} (h : step p s c = (o, .more s')) (cs : List ι) :
    run step p s (c :: cs) = prepend o (run step (p + 1) s' cs) := by
  simp only [run, h, prepend]

theorem run_halt {p : Nat} {s : σ} {c : ι} {o : List ο} {v : ν} (h : step p s c = (o, .halt v)) (cs : List ι) :
    run step p s (c :: cs) = (o, .halted v cs) := by
  simp only [run, h]

/-- Two states that read the next symbol alike read everything that starts with it alike. -/
theorem run_cons_congr {p : Nat} {s t : σ} {c : ι} (h : step p s c = step p t c) (cs : List ι) :
    run step p s (c :: cs) = run step p t (c :: cs) := by
  simp only [run, h]

/-- The same when one of them has outputs of its own first. -/
theorem run_cons_prepend {p : Nat} {s t : σ} {c : ι} {o : List ο}
    (h : step p s c = (o ++ (step p t c).1, (step p t c).2)) (cs : List ι) :
    run step p s (c :: cs) = prepend o (run step p t (c :: cs)) := by
  cases ht : step p t c with
  | mk o' n =>
    rw [ht] at h
    cases n with
    | more s' => rw [run_more h, run_more ht, prepend_prepend]
    | halt v =>
      rw [run_halt h, run_halt ht]
      rfl

/-- A step that does not look at its position reads alike everywhere. -/
theorem run_unplaced (h : ∀ p q s c, step p s c = step q s c) (p q : Nat) (s : σ) (b : List ι) :
    run step p s b = run step q s b := by
  induction b generalizing p q s with
  | nil => rfl
  | cons c cs ih => simp only [run, h p q s c, ih (p + 1) (q + 1)]

/-! ## Cutting a run -/

/-- Carry on with more input after a run. -/
def resume (step : Step σ ι ο ν) (p : Nat) (b : List ι) : List ο × Outcome σ ι ν → List ο × Outcome σ ι ν
  | (o, .live s) => prepend o (run step p s b)
  | (o, .halted v rest) => (o, .halted v (rest ++ b))

theorem resume_prepend (p : Nat) (b : List ι) (o : List ο) (r : List ο × Outcome σ ι ν) :
    resume step p b (prepend o r) = prepend o (resume step p b r) := by
  obtain ⟨o', r⟩ := r
  cases r with
  | live s => simp [resume, prepend]
  | halted v rest => rfl

theorem run_append (p : Nat) (s : σ) (a b : List ι) :
    run step p s (a ++ b) = resume step (p + a.length) b (run step p s a) := by
  induction a generalizing p s with
  | nil => simp [resume]
  | cons c cs ih =>
    rw [List.cons_append]
    cases h : step p s c with
    | mk o n =>
      cases n with
      | more s' =>
        rw [run_more h, run_more h, ih, resume_prepend, List.length_cons]
        congr 2
        omega
      | halt v => rw [run_halt h, run_halt h, resume]

/-- **A verdict is final**: more input changes neither it nor the outputs. -/
theorem halted_append {p : Nat} {s : σ} {a rest : List ι} {o : List ο} {v : ν}
    (h : run step p s a = (o, .halted v rest)) (b : List ι) :
    run step p s (a ++ b) = (o, .halted v (rest ++ b)) := by
  rw [run_append, h, resume]

/-- The outputs on a prefix are a prefix of the outputs. -/
theorem run_fst_prefix (p : Nat) (s : σ) (a b : List ι) :
    (run step p s a).1 <+: (run step p s (a ++ b)).1 := by
  rw [run_append]
  obtain ⟨o, r⟩ := run step p s a
  cases r with
  | live s' => exact List.prefix_append _ _
  | halted v rest => exact List.prefix_rfl

/-- What a halted run read, and nothing else, decides it. -/
theorem halted_split {p : Nat} {s : σ} {b rest : List ι} {o : List ο} {v : ν}
    (h : run step p s b = (o, .halted v rest)) :
    ∃ a, b = a ++ rest ∧ ∀ b', run step p s (a ++ b') = (o, .halted v b') := by
  induction b generalizing p s o with
  | nil => simp at h
  | cons c cs ih =>
    cases hs : step p s c with
    | mk o₁ n =>
      cases n with
      | halt v' =>
        rw [run_halt hs] at h
        obtain ⟨rfl, rfl, rfl⟩ : o₁ = o ∧ v' = v ∧ cs = rest := by simpa using h
        exact ⟨[c], rfl, fun b' => run_halt hs b'⟩
      | more s' =>
        rw [run_more hs] at h
        obtain ⟨ho, hr⟩ := Prod.mk.inj h
        obtain ⟨a, ha, hall⟩ := ih (p := p + 1) (s := s') (o := (run step (p + 1) s' cs).1) (Prod.ext rfl hr)
        refine ⟨c :: a, by rw [ha]; rfl, fun b' => ?_⟩
        rw [List.cons_append, run_more hs, hall b', ← ho]
        rfl

/-- What holds of every verdict a step can give holds of the verdict of a run. -/
theorem run_verdict {Q : ν → Prop} (hstep : ∀ p s c v, (step p s c).2 = .halt v → Q v)
    {p : Nat} {s : σ} {b rest : List ι}
    {o : List ο} {v : ν} (h : run step p s b = (o, .halted v rest)) : Q v := by
  induction b generalizing p s o with
  | nil => simp at h
  | cons c cs ih =>
    rcases hs : step p s c with ⟨o₁, s' | v'⟩
    · rw [run_more hs] at h
      exact ih (Prod.ext rfl (Prod.mk.inj h).2)
    · rw [run_halt hs] at h
      obtain ⟨-, rfl, -⟩ : o₁ = o ∧ v' = v ∧ cs = rest := by simpa using h
      exact hstep p s c v' (by rw [hs])

/-- What holds of every output of every step holds of every output of a run. -/
theorem run_outputs {Q : ο → Prop} (hstep : ∀ p s c, ∀ o ∈ (step p s c).1, Q o) (p : Nat) (s : σ) (b : List ι) :
    ∀ o ∈ (run step p s b).1, Q o := by
  induction b generalizing p s with
  | nil => intro o ho; cases ho
  | cons c cs ih =>
    intro o ho
    cases hs : step p s c with
    | mk o₁ n =>
      have hfirst := hstep p s c
      rw [hs] at hfirst
      cases n with
      | more s' =>
        rw [run_more hs, prepend_fst] at ho
        rcases List.mem_append.1 ho with h | h
        · exact hfirst o h
        · exact ih (p + 1) s' o h
      | halt v =>
        rw [run_halt hs] at ho
        exact hfirst o ho

/-- Inputs no step answers to leave no outputs behind. -/
theorem run_silent {Q : ι → Prop} (hstep : ∀ p s c, Q c → (step p s c).1 = []) {b : List ι} (hb : ∀ c ∈ b, Q c)
    (p : Nat) (s : σ) : (run step p s b).1 = [] := by
  induction b generalizing p s with
  | nil => rfl
  | cons c cs ih =>
    have hc := hstep p s c (hb c (List.mem_cons_self ..))
    rcases hs : step p s c with ⟨o, s' | v⟩
    · rw [hs] at hc
      rw [run_more hs, prepend_fst, ih fun d hd => hb d (List.mem_cons_of_mem _ hd)]
      exact (List.append_nil o).trans hc
    · rw [hs] at hc
      rw [run_halt hs]
      exact hc

/-! ## The invariant rule -/

/-- `Inv w o s`: having read `w` and written `o`, the reader is in `s`. One step preserves it. -/
def Preserved (step : Step σ ι ο ν) (p₀ : Nat) (Inv : List ι → List ο → σ → Prop) : Prop :=
  ∀ w o s c o' s', Inv w o s → step (p₀ + w.length) s c = (o', .more s') → Inv (w ++ [c]) (o ++ o') s'

theorem run_inv_from {p₀ : Nat} {Inv : List ι → List ο → σ → Prop} (hstep : Preserved step p₀ Inv) :
    ∀ (b w : List ι) (o : List ο) (s : σ), Inv w o s →
      match run step (p₀ + w.length) s b with
      | (o', .live s') => Inv (w ++ b) (o ++ o') s'
      | (o', .halted v rest) => ∃ a c o₁ o₂ s₁, b = a ++ c :: rest ∧ o' = o₁ ++ o₂ ∧
          Inv (w ++ a) (o ++ o₁) s₁ ∧ step (p₀ + (w ++ a).length) s₁ c = (o₂, .halt v)
  | [], w, o, s, hi => by simpa using hi
  | c :: cs, w, o, s, hi => by
    cases hs : step (p₀ + w.length) s c with
    | mk o₁ n =>
      cases n with
      | halt v =>
        rw [run_halt hs]
        exact ⟨[], c, [], o₁, s, rfl, rfl, by simpa using hi, by simpa using hs⟩
      | more s₁ =>
        have ih := run_inv_from hstep cs (w ++ [c]) (o ++ o₁) s₁ (hstep w o s c o₁ s₁ hi hs)
        have hp : p₀ + (w ++ [c]).length = p₀ + w.length + 1 := by simp; omega
        rw [run_more hs]
        rw [hp] at ih
        cases hr : run step (p₀ + w.length + 1) s₁ cs with
        | mk o₂ r =>
          rw [hr] at ih
          cases r with
          | live s' => simpa [prepend] using ih
          | halted v rest =>
            obtain ⟨a, d, x, y, s₂, rfl, rfl, h1, h2⟩ := ih
            exact ⟨c :: a, d, o₁ ++ x, y, s₂, rfl, by simp, by simpa using h1, by simpa using h2⟩

/-- **The invariant rule.** An invariant of the start state that every step preserves holds where a
live run ends, and at the symbol a halted run stopped on. -/
theorem run_inv {p₀ : Nat} {Inv : List ι → List ο → σ → Prop} (hstep : Preserved step p₀ Inv)
    {s : σ} (hi : Inv [] [] s) (b : List ι) :
    match run step p₀ s b with
    | (o, .live s') => Inv b o s'
    | (o, .halted v rest) => ∃ a c o₁ o₂ s₁, b = a ++ c :: rest ∧ o = o₁ ++ o₂ ∧
        Inv a o₁ s₁ ∧ step (p₀ + a.length) s₁ c = (o₂, .halt v) := by
  simpa using run_inv_from hstep b [] [] s hi

theorem run_inv_live {p₀ : Nat} {Inv : List ι → List ο → σ → Prop} (hstep : Preserved step p₀ Inv)
    {s s' : σ} (hi : Inv [] [] s) {b : List ι} {o : List ο} (h : run step p₀ s b = (o, .live s')) :
    Inv b o s' := by
  have := run_inv hstep hi b
  rwa [h] at this

theorem run_inv_halted {p₀ : Nat} {Inv : List ι → List ο → σ → Prop} (hstep : Preserved step p₀ Inv)
    {s : σ} (hi : Inv [] [] s) {b rest : List ι} {o : List ο} {v : ν}
    (h : run step p₀ s b = (o, .halted v rest)) :
    ∃ a c o₁ o₂ s₁, b = a ++ c :: rest ∧ o = o₁ ++ o₂ ∧
      Inv a o₁ s₁ ∧ step (p₀ + a.length) s₁ c = (o₂, .halt v) := by
  have := run_inv hstep hi b
  rwa [h] at this

/-- The run itself is an invariant. -/
theorem run_live_preserved (p₀ : Nat) (s : σ) :
    Preserved step p₀ (fun w o s' => run step p₀ s w = (o, .live s')) := by
  intro w o s₁ c o' s' hw hs
  rw [run_append, hw, resume, run_more hs, run_nil, prepend_prepend]
  simp [prepend]

/-- **Where a run halts**: it was live up to the symbol its verdict came with. -/
theorem halted_at {p : Nat} {s : σ} {b rest : List ι} {o : List ο} {v : ν}
    (h : run step p s b = (o, .halted v rest)) :
    ∃ a c o₁ o₂ s₁, b = a ++ c :: rest ∧ o = o₁ ++ o₂ ∧ run step p s a = (o₁, .live s₁) ∧
      step (p + a.length) s₁ c = (o₂, .halt v) :=
  run_inv_halted (run_live_preserved p s) rfl h

/-- The verdict that comes with the next symbol. -/
theorem run_halt_at {p : Nat} {s s₁ : σ} {a : List ι} {c : ι} {o₁ o₂ : List ο} {v : ν}
    (h : run step p s a = (o₁, .live s₁)) (hs : step (p + a.length) s₁ c = (o₂, .halt v)) (cs : List ι) :
    run step p s (a ++ c :: cs) = (o₁ ++ o₂, .halted v cs) := by
  rw [run_append, h, resume, run_halt hs]
  rfl

/-! ## Viable prefixes -/

/-- **Viable prefixes.** If every run that is still live can be continued to a verdict of `Good`, then a word
is left undecided exactly when it is not decided good and can be extended to one that is. -/
theorem live_iff_viable {p₀ : Nat} {s : σ} (Good : ν → Prop)
    (hcomplete : ∀ w o s', run step p₀ s w = (o, .live s') →
      ∃ x o' v rest, run step p₀ s (w ++ x) = (o', .halted v rest) ∧ Good v) (b : List ι) :
    (∃ o s', run step p₀ s b = (o, .live s')) ↔
      (¬ ∃ o v rest, run step p₀ s b = (o, .halted v rest) ∧ Good v) ∧
      ∃ x o v rest, run step p₀ s (b ++ x) = (o, .halted v rest) ∧ Good v := by
  constructor
  · rintro ⟨o, s', h⟩
    refine ⟨?_, hcomplete b o s' h⟩
    rintro ⟨o', v, rest, h', -⟩
    rw [h] at h'
    cases h'
  · rintro ⟨hno, x, o, v, rest, hx, hg⟩
    rcases hr : run step p₀ s b with ⟨o₁, s' | ⟨v', rest'⟩⟩
    · exact ⟨o₁, s', rfl⟩
    · rw [halted_append hr x] at hx
      cases hx
      exact absurd ⟨_, _, _, hr, hg⟩ hno

/-! ## Segments -/

/-- A segment on which the reader only updates what its state holds is read in one go. -/
theorem run_segment {β : Type u} (phase : β → σ) {f : β → ι → β} {Q : ι → Prop}
    (hstep : ∀ p b c, Q c → step p (phase b) c = ([], .more (phase (f b c)))) {w : List ι} (hw : ∀ c ∈ w, Q c)
    (p : Nat) (b : β) (rest : List ι) :
    run step p (phase b) (w ++ rest) = run step (p + w.length) (phase (w.foldl f b)) rest := by
  induction w generalizing p b with
  | nil => rfl
  | cons c w ih =>
    rw [List.cons_append, run_more (hstep p b c (hw c (List.mem_cons_self ..))), prepend_nil,
      ih (fun d hd => hw d (List.mem_cons_of_mem _ hd)), List.foldl_cons, List.length_cons]
    congr 1
    omega

/-! ## One reader after another -/

/-- Run `fst` until it says `ok`, then `snd` from the state `init p`, `p` being the position after the
symbol `fst` stopped on. -/
def seq (fst : Step σ ι ο (Except ε PUnit)) (snd : Step τ ι ο (Except ε ν)) (init : Nat → τ) :
    Step (σ ⊕ τ) ι ο (Except ε ν)
  | p, .inl s, c =>
    match fst p s c with
    | (o, .more s') => (o, .more (.inl s'))
    | (o, .halt (.ok _)) => (o, .more (.inr (init (p + 1))))
    | (o, .halt (.error e)) => (o, .halt (.error e))
  | p, .inr t, c =>
    match snd p t c with
    | (o, .more t') => (o, .more (.inr t'))
    | (o, .halt v) => (o, .halt v)

/-- A run of the second reader, seen as a run of the pair. -/
def inSnd (r : List ο × Outcome τ ι ν) : List ο × Outcome (σ ⊕ τ) ι ν :=
  (r.1, match r.2 with | .live t => .live (.inr t) | .halted v rest => .halted v rest)

theorem inSnd_prepend (o : List ο) (r : List ο × Outcome τ ι ν) :
    (inSnd (prepend o r) : List ο × Outcome (σ ⊕ τ) ι ν) = prepend o (inSnd r) := rfl

section Seq

variable {fst : Step σ ι ο (Except ε PUnit)} {snd : Step τ ι ο (Except ε ν)} {init : Nat → τ}

section Step

variable {p : Nat} {s : σ} {t : τ} {c : ι} {o : List ο} {x : σ ⊕ τ} {v : Except ε ν}

/-- The pair goes on as the first reader does, or with the second once the first has said `ok`. -/
theorem seq_inl_more (h : seq fst snd init p (.inl s) c = (o, .more x)) :
    (∃ s', fst p s c = (o, .more s') ∧ x = .inl s') ∨
      ∃ u, fst p s c = (o, .halt (.ok u)) ∧ x = .inr (init (p + 1)) := by
  rcases hf : fst p s c with ⟨o', s' | e | u⟩
  · simp only [seq, hf] at h
    cases h
    exact Or.inl ⟨s', rfl, rfl⟩
  · simp only [seq, hf] at h
    cases h
  · simp only [seq, hf] at h
    cases h
    exact Or.inr ⟨u, rfl, rfl⟩

/-- Only an error of the first reader halts the pair. -/
theorem seq_inl_halt (h : seq fst snd init p (.inl s) c = (o, .halt v)) :
    ∃ e, fst p s c = (o, .halt (.error e)) ∧ v = .error e := by
  rcases hf : fst p s c with ⟨o', s' | e | u⟩
  · simp only [seq, hf] at h
    cases h
  · simp only [seq, hf] at h
    cases h
    exact ⟨e, rfl, rfl⟩
  · simp only [seq, hf] at h
    cases h

theorem seq_inr_more (h : seq fst snd init p (.inr t) c = (o, .more x)) :
    ∃ t', snd p t c = (o, .more t') ∧ x = .inr t' := by
  rcases hs : snd p t c with ⟨o', t' | v'⟩
  · simp only [seq, hs] at h
    cases h
    exact ⟨t', rfl, rfl⟩
  · simp only [seq, hs] at h
    cases h

theorem seq_inr_halt (h : seq fst snd init p (.inr t) c = (o, .halt v)) : snd p t c = (o, .halt v) := by
  rcases hs : snd p t c with ⟨o', t' | v'⟩
  · simp only [seq, hs] at h
    cases h
  · simp only [seq, hs] at h
    cases h
    rfl

end Step

theorem run_seq_inr (p : Nat) (t : τ) (b : List ι) :
    run (seq fst snd init) p (.inr t) b = inSnd (run snd p t b) := by
  induction b generalizing p t with
  | nil => rfl
  | cons c cs ih =>
    cases h : snd p t c with
    | mk o n =>
      cases n with
      | more t' =>
        have hs : seq fst snd init p (.inr t) c = (o, .more (.inr t')) := by simp only [seq, h]
        rw [run_more hs, run_more h, ih, inSnd_prepend]
      | halt v =>
        have hs : seq fst snd init p (.inr t) c = (o, .halt v) := by simp only [seq, h]
        rw [run_halt hs, run_halt h]
        rfl

/-- **Sequencing**: the pair runs the first reader, and on `ok` the second on what is left. -/
theorem run_seq (p : Nat) (s : σ) (b : List ι) :
    run (seq fst snd init) p (.inl s) b =
      match run fst p s b with
      | (o, .live s') => (o, .live (.inl s'))
      | (o, .halted (.ok _) rest) =>
        prepend o (inSnd (run snd (p + (b.length - rest.length)) (init (p + (b.length - rest.length))) rest))
      | (o, .halted (.error e) rest) => (o, .halted (.error e) rest) := by
  induction b generalizing p s with
  | nil => rfl
  | cons c cs ih =>
    cases h : fst p s c with
    | mk o n =>
      cases n with
      | more s' =>
        have hs : seq fst snd init p (.inl s) c = (o, .more (.inl s')) := by simp only [seq, h]
        rw [run_more hs, run_more h, ih]
        cases hr : run fst (p + 1) s' cs with
        | mk o₁ r =>
          cases r with
          | live s₁ => rfl
          | halted v rest =>
            cases v with
            | error e => rfl
            | ok u =>
              obtain ⟨a, rfl, -⟩ := halted_split hr
              have hl : p + 1 + ((a ++ rest).length - rest.length) =
                  p + ((c :: (a ++ rest)).length - rest.length) := by
                simp only [List.length_append, List.length_cons]
                omega
              simp only [hl, prepend_prepend]
              rfl
      | halt v =>
        cases v with
        | error e =>
          have hs : seq fst snd init p (.inl s) c = (o, .halt (.error e)) := by simp only [seq, h]
          rw [run_halt hs, run_halt h]
        | ok u =>
          have hs : seq fst snd init p (.inl s) c = (o, .more (.inr (init (p + 1)))) := by simp only [seq, h]
          have hl : p + ((c :: cs).length - cs.length) = p + 1 := by
            simp only [List.length_cons]
            omega
          rw [run_more hs, run_halt h, run_seq_inr]
          simp only [hl]

end Seq

end Transducer

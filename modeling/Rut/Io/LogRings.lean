import Mathlib

/-!
# The rings of the access log and of the capture

One producer and one consumer on a ring, each in its own thread. A step is one access to memory: a
load or a store of a position, or of one word of an entry. The two rings differ only in how many
entries they have. Positions count modulo `2 ^ 32`, from anywhere.

What was pushed and what was popped so far is kept beside the ring. Each side is the only one to move
its own position, and the other position only moves away from it: so what a side has loaded stays
right for as long as it relies on it.
-/

namespace Rut.Io

open List Function

inductive RingKind where
  | accessLog | capture

namespace RingKind

def kCapacity : RingKind → Nat
  | .accessLog => 512
  | .capture => 256

def kMask (ring : RingKind) : Nat := ring.kCapacity - 1

theorem and_kMask (ring : RingKind) (pos : Nat) : pos &&& ring.kMask = pos % ring.kCapacity := by
  cases ring with
  | accessLog => exact Nat.and_two_pow_sub_one_eq_mod pos 9
  | capture => exact Nat.and_two_pow_sub_one_eq_mod pos 8

theorem kCapacity_dvd (ring : RingKind) : ring.kCapacity ∣ 2 ^ 32 := by cases ring <;> decide

theorem kCapacity_le (ring : RingKind) : ring.kCapacity ≤ 512 := by cases ring <;> decide

end RingKind

/-- An entry of `n` words. -/
abbrev Entry (ω : Type) (n : Nat) := Fin n → ω

/-- Where a thread is in `push` or `pop`: behind the load of its own position, or in the copy. The
entry is the one that is pushed, or the one that is filled. -/
inductive Access (ω : Type) (n : Nat) where
  | idle
  | loaded (entry : Entry ω n) (pos : Nat)
  | copying (entry : Entry ω n) (pos word : Nat)

variable {ω : Type} {n : Nat}

/-- What a thread has loaded is its own position, and `P` holds of the copy it makes. -/
def Access.Ok (a : Access ω n) (pos : Nat) (P : Entry ω n → Nat → Prop) : Prop :=
  match a with
  | .idle => True
  | .loaded _ p => p = pos
  | .copying entry p word => p = pos ∧ P entry word

theorem Access.Ok.mono {a : Access ω n} {pos : Nat} {P Q : Entry ω n → Nat → Prop} (h : a.Ok pos P)
    (hPQ : ∀ entry word, P entry word → Q entry word) : a.Ok pos Q := by
  cases a with
  | idle => trivial
  | loaded entry p => exact h
  | copying entry p word => exact ⟨h.1, hPQ entry word h.2⟩

structure LogRing (ω : Type) (n : Nat) where
  writePos : Nat
  readPos : Nat
  entries : Nat → Entry ω n
  producer : Access ω n := .idle
  consumer : Access ω n := .idle
  pushed : List (Entry ω n) := []
  popped : List (Entry ω n) := []

namespace LogRing

/-- The next step of `push`; `entry` is what it is called with. -/
def push (ring : RingKind) (s : LogRing ω n) (entry : Entry ω n) : LogRing ω n :=
  match s.producer with
  | .idle => { s with producer := .loaded entry s.writePos }
  | .loaded entry wp =>
    if (wp + 2 ^ 32 - s.readPos) % 2 ^ 32 ≥ ring.kCapacity then { s with producer := .idle }
    else { s with producer := .copying entry wp 0 }
  | .copying entry wp word =>
    if h : word < n then
      let slot := wp &&& ring.kMask
      { s with entries := update s.entries slot
                 (update (s.entries slot) ⟨word, h⟩ (entry ⟨word, h⟩))
               producer := .copying entry wp (word + 1) }
    else
      { s with writePos := (wp + 1) % 2 ^ 32, producer := .idle, pushed := s.pushed ++ [entry] }

/-- The next step of `pop`, into `out`. -/
def pop (ring : RingKind) (s : LogRing ω n) (out : Entry ω n) : LogRing ω n :=
  match s.consumer with
  | .idle => { s with consumer := .loaded out s.readPos }
  | .loaded out rp =>
    if rp = s.writePos then { s with consumer := .idle } else { s with consumer := .copying out rp 0 }
  | .copying out rp word =>
    if h : word < n then
      let entry := s.entries (rp &&& ring.kMask)
      { s with consumer := .copying (update out ⟨word, h⟩ (entry ⟨word, h⟩)) rp (word + 1) }
    else { s with readPos := (rp + 1) % 2 ^ 32, consumer := .idle, popped := s.popped ++ [out] }

/-- Whose turn it is. -/
inductive Turn (ω : Type) (n : Nat) where
  | push (entry : Entry ω n)
  | pop (out : Entry ω n)

def step (ring : RingKind) (s : LogRing ω n) : Turn ω n → LogRing ω n
  | .push entry => s.push ring entry
  | .pop out => s.pop ring out

/-- A ring that starts at `start`, with anything in it. -/
def run (ring : RingKind) (start : Nat) (entries : Nat → Entry ω n) (turns : List (Turn ω n)) :
    LogRing ω n :=
  turns.foldl (step ring) { writePos := start % 2 ^ 32, readPos := start % 2 ^ 32, entries }

/-! ## The invariant -/

variable {ring : RingKind} {start : Nat} {s : LogRing ω n}

structure Inv (ring : RingKind) (start : Nat) (s : LogRing ω n) : Prop where
  writePos : s.writePos = (start + s.pushed.length) % 2 ^ 32
  readPos : s.readPos = (start + s.popped.length) % 2 ^ 32
  fifo : s.popped <+: s.pushed
  room : s.pushed.length ≤ s.popped.length + ring.kCapacity
  kept : ∀ i e, s.popped.length ≤ i → s.pushed[i]? = some e →
    s.entries ((start + i) % ring.kCapacity) = e
  /-- there is room for the entry, and what is copied of it is there -/
  producer : s.producer.Ok s.writePos fun entry word =>
    s.pushed.length < s.popped.length + ring.kCapacity ∧
      ∀ j : Fin n, j < word → s.entries (s.writePos % ring.kCapacity) j = entry j
  /-- the entry that is copied is the next one -/
  consumer : s.consumer.Ok s.readPos fun out word =>
    ∃ next rest, s.pushed = s.popped ++ next :: rest ∧ ∀ j : Fin n, j < word → out j = next j

theorem slot_eq (i : Nat) : (start + i) % 2 ^ 32 % ring.kCapacity = (start + i) % ring.kCapacity :=
  Nat.mod_mod_of_dvd _ ring.kCapacity_dvd

/-- The difference of the positions is the number of entries between them. -/
theorem Inv.distance (h : Inv ring start s) :
    (s.writePos + 2 ^ 32 - s.readPos) % 2 ^ 32 = s.pushed.length - s.popped.length := by
  have := h.room
  have := h.fifo.length_le
  have := ring.kCapacity_le
  rw [h.writePos, h.readPos]
  omega

/-- The slot that is written is none of those that are still to be popped: they are less than a round
behind it. -/
theorem Inv.kept_update (h : Inv ring start s) (hlt : s.pushed.length < s.popped.length + ring.kCapacity)
    (v : Entry ω n) {i : Nat} {e : Entry ω n} (hi : s.popped.length ≤ i) (he : s.pushed[i]? = some e) :
    update s.entries (s.writePos % ring.kCapacity) v ((start + i) % ring.kCapacity) = e := by
  have hilt : i < s.pushed.length := (List.getElem?_eq_some_iff.mp he).1
  have hne : (start + i) % ring.kCapacity ≠ s.writePos % ring.kCapacity := by
    rw [h.writePos, slot_eq]
    intro heq
    have hdvd := Nat.sub_mod_eq_zero_of_mod_eq heq.symm
    rw [show start + s.pushed.length - (start + i) = s.pushed.length - i by omega,
      Nat.mod_eq_of_lt (by omega)] at hdvd
    omega
  rw [update_of_ne hne]
  exact h.kept i e hi he

/-- One word more is copied. -/
theorem agree_update {a b : Entry ω n} {word : Nat} (hword : word < n)
    (h : ∀ j : Fin n, j < word → a j = b j) {j : Fin n} (hj : j < word + 1) :
    update a ⟨word, hword⟩ (b ⟨word, hword⟩) j = b j := by
  by_cases hjw : j = ⟨word, hword⟩
  · rw [hjw, update_self]
  · have hne : (j : Nat) ≠ word := fun hv => hjw (Fin.ext hv)
    rw [update_of_ne hjw]
    exact h j (by omega)

theorem Inv.push (h : Inv ring start s) (entry : Entry ω n) : Inv ring start (s.push ring entry) := by
  have hp := h.producer
  unfold LogRing.push
  split
  · exact { h with producer := rfl }
  · next entry wp heq =>
    rw [heq] at hp
    obtain rfl : wp = s.writePos := hp
    rw [h.distance]
    split
    · exact { h with producer := trivial }
    · exact { h with producer := ⟨rfl, by dsimp only; omega, by simp⟩ }
  · next entry wp word heq =>
    rw [heq] at hp
    obtain ⟨rfl, hlt, hcopy⟩ := hp
    split
    · next hword =>
      rw [RingKind.and_kMask]
      refine { h with kept := fun i e => h.kept_update hlt _, producer := ⟨rfl, hlt, fun j hj => ?_⟩ }
      show update s.entries _ _ _ j = _
      rw [update_self]
      exact agree_update hword hcopy hj
    · next hword =>
      have hwhole : s.entries (s.writePos % ring.kCapacity) = entry :=
        funext fun j => hcopy j (by omega)
      have hlen : (s.pushed ++ [entry]).length = s.pushed.length + 1 := length_append ..
      refine ⟨?_, h.readPos, h.fifo.trans (prefix_append ..), hlen ▸ hlt, fun i e hi he => ?_,
        trivial, h.consumer.mono ?_⟩
      · rw [hlen]
        show (s.writePos + 1) % 2 ^ 32 = _
        rw [h.writePos]
        omega
      · rw [List.getElem?_append] at he
        split at he
        · exact h.kept i e hi he
        · obtain ⟨hi0, rfl⟩ : i - s.pushed.length = 0 ∧ entry = e := by
            simpa [List.getElem?_singleton] using he
          rw [show i = s.pushed.length by omega, ← slot_eq, ← h.writePos]
          exact hwhole
      · -- the consumer sees nothing of it
        rintro out word ⟨next, rest, hpushed, hout⟩
        exact ⟨next, rest ++ [entry], by rw [hpushed, append_assoc]; rfl, hout⟩

theorem Inv.pop (h : Inv ring start s) (out : Entry ω n) : Inv ring start (s.pop ring out) := by
  have hc := h.consumer
  unfold LogRing.pop
  split
  · exact { h with consumer := rfl }
  · next out rp heq =>
    rw [heq] at hc
    obtain rfl : rp = s.readPos := hc
    split
    · exact { h with consumer := trivial }
    · next hne =>
      obtain ⟨later, hlater⟩ := h.fifo
      cases later with
      | nil => exact absurd (by rw [h.readPos, h.writePos, ← hlater, append_nil]) hne
      | cons next rest => exact { h with consumer := ⟨rfl, next, rest, hlater.symm, by simp⟩ }
  · next out rp word heq =>
    rw [heq] at hc
    obtain ⟨rfl, next, rest, hpushed, hout⟩ := hc
    split
    · next hword =>
      have hslot : s.entries (s.readPos % ring.kCapacity) = next := by
        rw [h.readPos, slot_eq]
        exact h.kept _ _ (Nat.le_refl _) (by rw [hpushed]; simp)
      rw [RingKind.and_kMask, hslot]
      exact { h with consumer := ⟨rfl, next, rest, hpushed, fun j hj => agree_update hword hout hj⟩ }
    · next hword =>
      obtain rfl : out = next := funext fun j => hout j (by omega)
      have hlen : (s.popped ++ [out]).length = s.popped.length + 1 := length_append ..
      refine ⟨h.writePos, ?_, ⟨rest, by rw [hpushed, append_assoc]; rfl⟩, ?_, fun i e hi he => ?_,
        ?_, trivial⟩
      · rw [hlen]
        show (s.readPos + 1) % 2 ^ 32 = _
        rw [h.readPos]
        omega
      · have := h.room
        rw [hlen]
        dsimp only
        omega
      · exact h.kept i e (by rw [hlen] at hi; omega) he
      · exact h.producer.mono fun _ _ hp => ⟨by rw [hlen]; dsimp only; omega, hp.2⟩

theorem Inv.step (h : Inv ring start s) (turn : Turn ω n) : Inv ring start (s.step ring turn) := by
  cases turn with
  | push entry => exact h.push entry
  | pop out => exact h.pop out

theorem Inv.run (ring : RingKind) (start : Nat) (entries : Nat → Entry ω n) (turns : List (Turn ω n)) :
    Inv ring start (run ring start entries turns) :=
  List.foldlRecOn turns (LogRing.step ring) (motive := fun s => Inv ring start s)
    ⟨rfl, rfl, prefix_refl [], Nat.zero_le _, by simp, trivial, trivial⟩
    fun _ hs turn _ => hs.step turn

/-! ## Calls that are run to their end

A call that finds what it needs has `n + 3` steps: two loads, the words of the entry, one store. What
the other side does in between makes no difference to it. -/

/-- How many of its steps the call of a thread has made. -/
def stage : Access ω n → Nat
  | .idle => 0
  | .loaded _ _ => 1
  | .copying _ _ word => word + 2

def Turn.isPop : Turn ω n → Bool
  | .push _ => false
  | .pop _ => true

/-- A turn of the producer does not touch the consumer, and takes back nothing. -/
theorem push_keeps (ring : RingKind) (s : LogRing ω n) (entry : Entry ω n) :
    (s.push ring entry).consumer = s.consumer ∧ (s.push ring entry).popped = s.popped ∧
      s.pushed <+: (s.push ring entry).pushed := by
  unfold LogRing.push
  split
  · exact ⟨rfl, rfl, prefix_refl _⟩
  · split <;> exact ⟨rfl, rfl, prefix_refl _⟩
  · split
    · exact ⟨rfl, rfl, prefix_refl _⟩
    · exact ⟨rfl, rfl, prefix_append ..⟩

/-- A turn of the consumer does not touch the producer, and takes away no room. -/
theorem pop_keeps (ring : RingKind) (s : LogRing ω n) (out : Entry ω n) :
    (s.pop ring out).producer = s.producer ∧ (s.pop ring out).pushed = s.pushed ∧
      s.popped.length ≤ (s.pop ring out).popped.length := by
  unfold LogRing.pop
  split
  · exact ⟨rfl, rfl, Nat.le_refl _⟩
  · split <;> exact ⟨rfl, rfl, Nat.le_refl _⟩
  · split
    · exact ⟨rfl, rfl, Nat.le_refl _⟩
    · exact ⟨rfl, rfl, by simp⟩

variable {next entry : Entry ω n} {rest : List (Entry ω n)}

/-- With an entry to pop, every step of a pop leads on to the next, and the last one hands over the
entry. -/
theorem Inv.pop_cases (h : Inv ring start s) (hnext : s.pushed = s.popped ++ next :: rest)
    (out : Entry ω n) :
    (stage s.consumer < n + 2 ∧ stage (s.pop ring out).consumer = stage s.consumer + 1 ∧
      (s.pop ring out).popped = s.popped) ∨
    (n + 2 ≤ stage s.consumer ∧ (s.pop ring out).popped = s.popped ++ [next]) := by
  have hc := h.consumer
  unfold LogRing.pop
  split
  · next heq =>
    rw [heq]
    exact .inl ⟨Nat.succ_pos _, rfl, rfl⟩
  · next out rp heq =>
    rw [heq] at hc ⊢
    obtain rfl : rp = s.readPos := hc
    have hne : s.readPos ≠ s.writePos := by
      have hlen := congrArg List.length hnext
      have := h.room
      have := ring.kCapacity_le
      rw [length_append, length_cons] at hlen
      rw [h.readPos, h.writePos]
      omega
    rw [if_neg hne]
    exact .inl ⟨Nat.succ_lt_succ (Nat.succ_pos _), rfl, rfl⟩
  · next out rp word heq =>
    rw [heq] at hc ⊢
    split
    · next hword => exact .inl ⟨Nat.add_lt_add_right hword 2, rfl, rfl⟩
    · next hword =>
      obtain ⟨-, next', rest', hpushed, hout⟩ := hc
      obtain rfl : out = next' := funext fun j => hout j (by omega)
      obtain ⟨rfl, -⟩ := cons.inj (append_cancel_left (hnext.symm.trans hpushed))
      exact .inr ⟨Nat.add_le_add_right (Nat.le_of_not_lt hword) 2, rfl⟩

/-- Without a turn of the consumer nothing is popped. -/
theorem popped_of_pushes (turns : List (Turn ω n)) (h : turns.countP Turn.isPop = 0) :
    (turns.foldl (step ring) s).popped = s.popped := by
  refine List.foldlRecOn turns (step ring) (motive := fun t => t.popped = s.popped) rfl ?_
  intro t ht turn hturn
  cases turn with
  | push entry => exact (push_keeps ring t entry).2.1.trans ht
  | pop out => exact absurd rfl (countP_eq_zero.mp h _ hturn)

/-- The rest of a pop, whatever is pushed meanwhile: by induction on the turns, the consumer one step
further with each of its own. -/
theorem popped_foldl (turns : List (Turn ω n)) : ∀ {s : LogRing ω n} (rest : List (Entry ω n)),
    Inv ring start s → s.pushed = s.popped ++ next :: rest → stage s.consumer < n + 3 →
    stage s.consumer + turns.countP Turn.isPop = n + 3 →
    (turns.foldl (step ring) s).popped = s.popped ++ [next] := by
  induction turns with
  | nil =>
    intro s rest _ _ hlt hcount
    exact absurd hcount hlt.ne
  | cons turn turns ih =>
    intro s rest h hnext hlt hcount
    rw [foldl_cons]
    cases turn with
    | push entry =>
      obtain ⟨hconsumer, hpopped, later, hlater⟩ := push_keeps ring s entry
      rw [← hconsumer] at hlt hcount
      rw [step, ← hpopped]
      refine ih (rest ++ later) (h.push entry) ?_ hlt hcount
      rw [hpopped, ← hlater, hnext, append_assoc, cons_append]
    | pop out =>
      rw [countP_cons_of_pos rfl] at hcount
      rcases h.pop_cases hnext out with ⟨hlt, hstage, hpopped⟩ | ⟨hlast, hpopped⟩
      · rw [step, ← hpopped]
        refine ih rest (h.pop out) ?_ (by omega) (by omega)
        rw [(pop_keeps ring s out).2.1, hpopped, hnext]
      · rw [popped_of_pushes turns (by omega)]
        exact hpopped

/-- What a thread has been called with. -/
def carried : Access ω n → Option (Entry ω n)
  | .idle => none
  | .loaded entry _ => some entry
  | .copying entry _ _ => some entry

/-- With room in the ring, every step of a push leads on to the next, and the last one publishes its
entry. -/
theorem Inv.push_cases (h : Inv ring start s) (hroom : s.pushed.length < s.popped.length + ring.kCapacity)
    (hentry : carried s.producer = some entry) (e : Entry ω n) :
    (stage s.producer < n + 2 ∧ stage (s.push ring e).producer = stage s.producer + 1 ∧
      (s.push ring e).pushed = s.pushed ∧ carried (s.push ring e).producer = some entry) ∨
    (n + 2 ≤ stage s.producer ∧ (s.push ring e).pushed = s.pushed ++ [entry]) := by
  have hp := h.producer
  unfold LogRing.push
  split
  · next heq =>
    rw [heq] at hentry
    cases hentry
  · next e' wp heq =>
    rw [heq] at hp hentry ⊢
    obtain rfl : wp = s.writePos := hp
    have := h.fifo.length_le
    rw [h.distance, if_neg (by omega)]
    exact .inl ⟨Nat.succ_lt_succ (Nat.succ_pos _), rfl, rfl, hentry⟩
  · next e' wp word heq =>
    rw [heq] at hentry ⊢
    obtain rfl := Option.some.inj hentry
    split
    · next hword => exact .inl ⟨Nat.add_lt_add_right hword 2, rfl, rfl, rfl⟩
    · next hword => exact .inr ⟨Nat.add_le_add_right (Nat.le_of_not_lt hword) 2, rfl⟩

/-- Without a turn of the producer nothing is pushed. -/
theorem pushed_of_pops (turns : List (Turn ω n)) (h : turns.countP (!Turn.isPop ·) = 0) :
    (turns.foldl (step ring) s).pushed = s.pushed := by
  refine List.foldlRecOn turns (step ring) (motive := fun t => t.pushed = s.pushed) rfl ?_
  intro t ht turn hturn
  cases turn with
  | push entry => exact absurd rfl (countP_eq_zero.mp h _ hturn)
  | pop out => exact (pop_keeps ring t out).2.1.trans ht

/-- The rest of a push, whatever is popped meanwhile. -/
theorem pushed_foldl (entry : Entry ω n) (turns : List (Turn ω n)) : ∀ {s : LogRing ω n},
    Inv ring start s → s.pushed.length < s.popped.length + ring.kCapacity →
    carried s.producer = some entry → stage s.producer < n + 3 →
    stage s.producer + turns.countP (!Turn.isPop ·) = n + 3 →
    (turns.foldl (step ring) s).pushed = s.pushed ++ [entry] := by
  induction turns with
  | nil =>
    intro s _ _ _ hlt hcount
    exact absurd hcount hlt.ne
  | cons turn turns ih =>
    intro s h hroom hentry hlt hcount
    rw [foldl_cons]
    cases turn with
    | pop out =>
      obtain ⟨hproducer, hpushed, hpopped⟩ := pop_keeps ring s out
      rw [← hproducer] at hentry hlt hcount
      rw [step, ← hpushed]
      refine ih (h.pop out) ?_ hentry hlt hcount
      rw [hpushed]
      omega
    | push e =>
      rw [countP_cons_of_pos rfl] at hcount
      rcases h.push_cases hroom hentry e with ⟨hlt, hstage, hpushed, hentry⟩ | ⟨hlast, hpushed⟩
      · rw [step, ← hpushed]
        refine ih (h.push e) ?_ hentry (by omega) (by omega)
        rw [hpushed, (push_keeps ring s e).2.1]
        exact hroom
      · rw [pushed_of_pops turns (by omega)]
        exact hpushed

/-! ## What the rings guarantee -/

/-- Whatever the interleaving and wherever the positions start: what is popped is what was pushed, in
order, the entries in between are still in the ring, and a push fails only when the ring is full. A
push that finds room and a pop that finds an entry, run to their end, push their entry and hand over
the next one. -/
theorem fifo_run (ring : RingKind) (start : Nat) (entries : Nat → Entry ω n)
    (turns : List (Turn ω n)) :
    let s := run ring start entries turns
    s.popped <+: s.pushed ∧
      (∀ i e, s.popped.length ≤ i → s.pushed[i]? = some e →
        s.entries ((start + i) % 2 ^ 32 &&& ring.kMask) = e) ∧
      (∀ entry wp, s.producer = .loaded entry wp → (s.push ring entry).producer = .idle →
        s.pushed.length = s.popped.length + ring.kCapacity) ∧
      (∀ entry later, s.producer = .idle → s.pushed.length < s.popped.length + ring.kCapacity →
        later.countP (!Turn.isPop ·) = n + 2 →
        (run ring start entries (turns ++ .push entry :: later)).pushed = s.pushed ++ [entry]) ∧
      ∀ later, s.consumer = .idle → s.popped ≠ s.pushed → later.countP Turn.isPop = n + 3 →
        ∃ next, s.pushed[s.popped.length]? = some next ∧
          (run ring start entries (turns ++ later)).popped = s.popped ++ [next] := by
  have h := Inv.run ring start entries turns
  refine ⟨h.fifo, fun i e hi he => ?_, fun entry wp hs hidle => ?_, fun entry later hs hroom hcount => ?_,
    fun later hs hne hcount => ?_⟩
  · rw [RingKind.and_kMask, slot_eq]
    exact h.kept i e hi he
  · have hp := h.producer
    have := h.room
    have := h.fifo.length_le
    rw [hs] at hp
    rw [LogRing.push, hs] at hidle
    obtain rfl : wp = _ := hp
    dsimp only at hidle
    rw [h.distance] at hidle
    split at hidle
    · omega
    · cases hidle
  · -- the first turn has loaded the position
    have hfirst : (run ring start entries turns).push ring entry =
        { run ring start entries turns with
          producer := .loaded entry (run ring start entries turns).writePos } := by
      rw [LogRing.push, hs]
    have hrest := pushed_foldl entry later (h.push entry)
    rw [hfirst] at hrest
    rw [run, foldl_append, ← run, foldl_cons, step, hfirst]
    exact hrest hroom rfl (by simp [stage]) (by rw [hcount, stage]; omega)
  · obtain ⟨later', hlater⟩ := h.fifo
    cases later' with
    | nil => exact absurd (by rw [← hlater, append_nil]) hne
    | cons next rest =>
      refine ⟨next, by rw [← hlater]; simp, ?_⟩
      rw [run, foldl_append, ← run]
      exact popped_foldl later rest h hlater.symm (by rw [hs]; exact Nat.succ_pos _)
        (by rw [hs, hcount]; exact Nat.zero_add _)

/-- A pop fails exactly when everything that was pushed until then has been popped, and there is never
more to pop than the ring holds. -/
theorem pop_fails_iff (ring : RingKind) (start : Nat) (entries : Nat → Entry ω n)
    (turns : List (Turn ω n)) :
    let s := run ring start entries turns
    s.pushed.length ≤ s.popped.length + ring.kCapacity ∧ ∀ out rp, s.consumer = .loaded out rp →
      ((s.pop ring out).consumer = .idle ↔ s.popped = s.pushed) := by
  have h := Inv.run ring start entries turns
  refine ⟨h.room, fun out rp hs => ?_⟩
  have hc := h.consumer
  have := h.room
  have := h.fifo.length_le
  have := ring.kCapacity_le
  rw [hs] at hc
  rw [LogRing.pop, hs]
  obtain rfl : rp = _ := hc
  dsimp only
  rw [h.readPos, h.writePos]
  split
  · exact iff_of_true rfl (h.fifo.eq_of_length (by omega))
  · next hne => exact iff_of_false nofun fun heq => hne (by rw [heq])

/-- The consumer of an empty ring at the wrap of the positions, between its two loads. -/
example : let s := run (n := 1) .capture (2 ^ 32 - 1) (fun _ _ => 0) [.pop fun _ => 7]
    s.consumer = .loaded (fun _ => 7) (2 ^ 32 - 1) ∧ (s.pop .capture fun _ => 7).consumer = .idle :=
  ⟨rfl, rfl⟩

end LogRing

end Rut.Io

import Eventlog.Core.Platform
import Eventlog.Durable.Memo

/-!
# Eventlog.Core.VerifiedContent

Blob content one handle has already verified, so that a later read of equal bytes is not hashed
again.

A check takes the memory's lock three times: to look up, to count the full check it has to run,
and to settle what it accepted.  Between these, other checks, writes and erasures go on.  A
`Handle` is the memory with the checks that began on it, and an `Action` one turn at the lock:
what holds after every list of actions holds in every interleaving.

* `Handle.run_check` — a check left to itself is `checkStored`, or `checkRecorded`.
* `verified_content` — no answer differs from the full validator's, the budget holds, and what is
  held after an erasure was put there after it.
-/

namespace Eventlog

open Durable

/-! ## The full validator -/

def invalidIntegrity : EventLogError := .Backend "stored blob integrity metadata is invalid"

def validateLegacyBlobCount (bytes : Bytes) (byteCount : Int) : Except EventLogError Unit :=
  if byteCount < 0 then .error invalidIntegrity
  else if byteCount.toNat ≠ bytes.length then .error invalidIntegrity
  else .ok ()

def validateStoredBlob (P : Platform) (bytes : Bytes) (byteCount : Int)
    (integritySha256 : Option String) (integrityV1 : Int) : Except EventLogError Bytes := do
  validateLegacyBlobCount bytes byteCount
  match integritySha256 with
  | none => .error invalidIntegrity
  | some hash =>
      if integrityV1 ≠ 1 ∨ ¬ P.isSha256 hash ∨ P.sha256 bytes ≠ hash then .error invalidIntegrity
      else .ok bytes

/-! ## The memory -/

namespace VerifiedContent

/-- The most content bytes one handle remembers. -/
def VERIFIED_CONTENT_BUDGET : Nat := 32 * 2 ^ 20

/-- What one handle has verified, and the full checks it could not answer. -/
structure State where
  memory : Memo String Bytes
  hashed : Nat
  deriving DecidableEq

def State.empty : State := ⟨.empty, 0⟩

def State.insert (s : State) (hash : String) (bytes : Bytes) : State :=
  { s with memory := s.memory.insert List.length VERIFIED_CONTENT_BUDGET hash bytes }

/-- What one lookup saw: the remembered content under the hash, if any, and the generation. -/
structure Lookup where
  remembered : Option Bytes
  generation : Nat
  deriving DecidableEq

def Lookup.hit (l : Lookup) (bytes : Bytes) : Bool := l.remembered = some bytes

def State.lookUp (s : State) (hash : Option String) : Lookup :=
  ⟨hash.bind s.memory.find, s.memory.generation⟩

def State.countFullCheck (s : State) : State := { s with hashed := s.hashed + 1 }

def State.settle (s : State) (l : Lookup) (hash : String) (bytes : Bytes) : State :=
  { s with
    memory := s.memory.settle List.length VERIFIED_CONTENT_BUDGET l.generation hash bytes }

def State.remember (s : State) (hash : String) (bytes : Bytes) : State := s.insert hash bytes

def State.forget (s : State) : State := { s with memory := s.memory.forget }

/-- `check_stored`, with no one else at the memory. -/
def State.checkStored (P : Platform) (s : State) (bytes : Bytes) (byteCount : Int)
    (integritySha256 : Option String) (integrityV1 : Int) : Except EventLogError Bytes × State :=
  let lookup := s.lookUp integritySha256
  if integrityV1 = 1 ∧ lookup.hit bytes then
    ((validateLegacyBlobCount bytes byteCount).map fun _ => bytes, s)
  else
    let s := s.countFullCheck
    match validateStoredBlob P bytes byteCount integritySha256 integrityV1 with
    | .error e => (.error e, s)
    | .ok bytes =>
        match integritySha256 with
        | some hash => (.ok bytes, s.settle lookup hash bytes)
        | none => (.ok bytes, s)

/-- `check_recorded` with the full check its provider has: hash the bytes and compare. -/
def State.checkRecorded (P : Platform) (s : State) (bytes : Bytes) (integritySha256 : String) :
    Bool × State :=
  let lookup := s.lookUp (some integritySha256)
  if lookup.hit bytes then (true, s)
  else
    let s := s.countFullCheck
    let matched : Bool := P.sha256 bytes = integritySha256
    if matched then (matched, s.settle lookup integritySha256 bytes) else (matched, s)

/-! ## Checks in turns -/

/-- A call of `check_stored` or `check_recorded`. -/
inductive Check where
  | stored (bytes : Bytes) (byteCount : Int) (integritySha256 : Option String) (integrityV1 : Int)
  | recorded (bytes : Bytes) (integritySha256 : String)
  deriving DecidableEq

/-- What a check returns. -/
inductive Answer where
  | stored (row : Except EventLogError Bytes)
  | recorded (matched : Bool)
  deriving DecidableEq

namespace Check

/-- The hash a check looks up. -/
def hash : Check → Option String
  | stored _ _ hash _ => hash
  | recorded _ hash => some hash

/-- What the full validator answers. -/
def full (P : Platform) : Check → Answer
  | stored bytes byteCount hash integrityV1 =>
      .stored (validateStoredBlob P bytes byteCount hash integrityV1)
  | recorded bytes hash => .recorded (P.sha256 bytes = hash)

/-- What a check answers by comparison, if its lookup is a hit. -/
def compared (l : Lookup) : Check → Option Answer
  | stored bytes byteCount _ integrityV1 =>
      if integrityV1 = 1 ∧ l.hit bytes then
        some (.stored ((validateLegacyBlobCount bytes byteCount).map fun _ => bytes))
      else none
  | recorded bytes _ => if l.hit bytes then some (.recorded true) else none

/-- The content a full check accepts, under its hash. -/
def accepted (P : Platform) : Check → Option (String × Bytes)
  | stored bytes byteCount hash integrityV1 =>
      match validateStoredBlob P bytes byteCount hash integrityV1 with
      | .ok bytes => hash.map fun hash => (hash, bytes)
      | .error _ => none
  | recorded bytes hash => if P.sha256 bytes = hash then some (hash, bytes) else none

end Check

/-- How far a check is: it missed and has to run in full, it is counted and runs, or it has
    answered. -/
inductive Stage where
  | missed
  | counted
  | answered (answer : Answer)
  deriving DecidableEq

structure Running where
  check : Check
  lookup : Lookup
  stage : Stage
  deriving DecidableEq

/-- The memory of a handle and the checks that began on it, in the order they began. -/
structure Handle where
  state : State
  checks : List Running
  deriving DecidableEq

def Handle.new : Handle := ⟨.empty, []⟩

/-- One turn at the memory's lock.  `remember` is of content the handle hashed itself. -/
inductive Action where
  | lookUp (check : Check)
  | countFullCheck (i : Nat)
  | settle (i : Nat)
  | remember (bytes : Bytes)
  | forget
  deriving DecidableEq

/-- Where a check is after its lookup: what it answers by comparison, or the full check. -/
def Running.begun (check : Check) (lookup : Lookup) : Running :=
  ⟨check, lookup, (check.compared lookup).elim .missed .answered⟩

/-- The end of a full check: the content it accepts is settled. -/
def State.concluded (P : Platform) (s : State) (r : Running) : State :=
  match r.check.accepted P with
  | some (hash, bytes) => s.settle r.lookup hash bytes
  | none => s

/-- A turn.  A check that is not at the stage a turn belongs to takes none. -/
def Handle.act (P : Platform) (h : Handle) : Action → Handle
  | .lookUp check =>
      { h with checks := h.checks ++ [.begun check (h.state.lookUp check.hash)] }
  | .countFullCheck i =>
      match h.checks[i]? with
      | some ⟨check, lookup, .missed⟩ =>
          ⟨h.state.countFullCheck, h.checks.set i ⟨check, lookup, .counted⟩⟩
      | _ => h
  | .settle i =>
      match h.checks[i]? with
      | some ⟨check, lookup, .counted⟩ =>
          ⟨h.state.concluded P ⟨check, lookup, .counted⟩,
            h.checks.set i ⟨check, lookup, .answered (check.full P)⟩⟩
      | _ => h
  | .remember bytes => { h with state := h.state.remember (P.sha256 bytes) bytes }
  | .forget => { h with state := h.state.forget }

def Handle.run (P : Platform) (h : Handle) (actions : List Action) : Handle :=
  actions.foldl (Handle.act P) h

/-! ## A check left to itself -/

/-- A check with no one else at the memory. -/
def Check.alone (P : Platform) (s : State) : Check → Answer × State
  | stored bytes byteCount hash integrityV1 =>
      let (row, s) := s.checkStored P bytes byteCount hash integrityV1
      (.stored row, s)
  | recorded bytes hash =>
      let (matched, s) := s.checkRecorded P bytes hash
      (.recorded matched, s)

theorem Check.alone_of_compared {P : Platform} {s : State} {check : Check} {answer : Answer}
    (h : check.compared (s.lookUp check.hash) = some answer) :
    check.alone P s = (answer, s) := by
  cases check with
  | stored bytes byteCount hash integrityV1 =>
      simp only [compared] at h
      split_ifs at h with hhit
      obtain rfl := Option.some.inj h
      change integrityV1 = 1 ∧ (s.lookUp hash).hit bytes at hhit
      simp only [alone, State.checkStored, if_pos hhit]
  | recorded bytes hash =>
      simp only [compared] at h
      split_ifs at h with hhit
      obtain rfl := Option.some.inj h
      change (s.lookUp (some hash)).hit bytes at hhit
      simp only [alone, State.checkRecorded, if_pos hhit]

theorem Check.alone_of_missed {P : Platform} {s : State} {check : Check}
    (h : check.compared (s.lookUp check.hash) = none) :
    check.alone P s =
      (check.full P,
        s.countFullCheck.concluded P ⟨check, s.lookUp check.hash, .counted⟩) := by
  cases check with
  | stored bytes byteCount hash integrityV1 =>
      simp only [compared] at h
      split_ifs at h with hmiss
      change ¬(integrityV1 = 1 ∧ (s.lookUp hash).hit bytes) at hmiss
      simp only [alone, State.checkStored, if_neg hmiss, full, State.concluded, accepted, Check.hash]
      cases validateStoredBlob P bytes byteCount hash integrityV1 <;> cases hash <;> rfl
  | recorded bytes hash =>
      simp only [compared] at h
      split_ifs at h with hmiss
      change ¬(s.lookUp (some hash)).hit bytes at hmiss
      simp only [alone, State.checkRecorded, if_neg hmiss, full, State.concluded, accepted,
        Check.hash]
      by_cases hsha : P.sha256 bytes = hash <;> simp [hsha]

/-- **Three turns in a row** are the check: the memory and the answer are those of `checkStored`,
    or `checkRecorded`. -/
theorem Handle.run_check (P : Platform) (h : Handle) (check : Check) :
    h.run P [.lookUp check, .countFullCheck h.checks.length, .settle h.checks.length] =
      ⟨(check.alone P h.state).2, h.checks ++
        [⟨check, h.state.lookUp check.hash, .answered (check.alone P h.state).1⟩]⟩ := by
  cases hcompared : check.compared (h.state.lookUp check.hash) with
  | some answer =>
      simp [run, act, Running.begun, hcompared, Check.alone_of_compared hcompared]
  | none =>
      simp [run, act, Running.begun, hcompared, Check.alone_of_missed hcompared]

/-! ## Answers -/

variable {P : Platform}

/-- What is remembered is under its own hash. -/
def State.Truthful (P : Platform) (s : State) : Prop :=
  ∀ e ∈ s.memory.entries, P.sha256 e.2 = e.1

theorem State.Truthful.remembered {s : State} (h : s.Truthful P) {hash : Option String}
    {bytes : Bytes} (hhit : (s.lookUp hash).hit bytes) : hash = some (P.sha256 bytes) := by
  obtain ⟨hash, rfl, hfind⟩ := Option.bind_eq_some_iff.mp (of_decide_eq_true hhit)
  exact congrArg some (h _ (Memo.mem_of_find hfind)).symm

/-- The full check of bytes under their own hash is the check of their count. -/
theorem validateStoredBlob_sha256 (bytes : Bytes) (byteCount : Int) :
    validateStoredBlob P bytes byteCount (some (P.sha256 bytes)) 1 =
      (validateLegacyBlobCount bytes byteCount).map fun _ => bytes := by
  simp only [validateStoredBlob, P.isSha256_sha256, ne_eq, not_true_eq_false, or_self, if_false]
  cases validateLegacyBlobCount bytes byteCount <;> rfl

/-- **A comparison answers as the full check would.** -/
theorem Check.full_of_compared {s : State} (h : s.Truthful P) {check : Check} {answer : Answer}
    (hcompared : check.compared (s.lookUp check.hash) = some answer) : answer = check.full P := by
  cases check with
  | stored bytes byteCount hash integrityV1 =>
      simp only [compared] at hcompared
      split_ifs at hcompared with hhit
      obtain rfl := Option.some.inj hcompared
      obtain ⟨rfl, hhit⟩ := hhit
      obtain rfl := h.remembered hhit
      rw [full, validateStoredBlob_sha256]
  | recorded bytes hash =>
      simp only [compared] at hcompared
      split_ifs at hcompared with hhit
      obtain rfl := Option.some.inj hcompared
      simp [full, Option.some.inj (h.remembered hhit)]

theorem Check.sha256_of_accepted {check : Check} {e : String × Bytes}
    (h : check.accepted P = some e) : P.sha256 e.2 = e.1 := by
  cases check with
  | stored bytes byteCount hash integrityV1 =>
      simp only [accepted] at h
      split at h
      next held hvalid =>
        obtain ⟨hash, rfl, rfl⟩ := Option.map_eq_some_iff.mp h
        obtain ⟨-, -, hvalid⟩ := Checks.bind_eq_ok_iff.mp hvalid
        dsimp only at hvalid
        split_ifs at hvalid with hbad
        obtain rfl := Except.ok.inj hvalid
        tauto
      next => contradiction
  | recorded bytes hash =>
      obtain ⟨hsha, he⟩ := Option.ite_none_right_eq_some.mp h
      obtain rfl := Option.some.inj he
      exact hsha

/-! ## Turns -/

namespace Handle

variable {h : Handle} {action : Action}

/-- The entries of the memory. -/
def entries (h : Handle) : List (String × Bytes) := h.state.memory.entries

def generation (h : Handle) : Nat := h.state.memory.generation

/-- A turn puts content into the memory, and the check it settles is not among the first
    `n`: a write of that content, or the end of a full check that accepts it. -/
def PutsSince (P : Platform) (n : Nat) (h : Handle) (action : Action) (e : String × Bytes) : Prop :=
  (action = .remember e.2 ∧ e.1 = P.sha256 e.2) ∨
    ∃ i r, action = .settle i ∧ n ≤ i ∧ h.checks[i]? = some r ∧ r.check.accepted P = some e

/-- What a turn does: it moves one check, and the memory as it is moved there. -/
inductive Turn (P : Platform) (h : Handle) : Action → Handle → Prop
  | looked (check : Check) :
      Turn P h (.lookUp check)
        { h with checks := h.checks ++ [.begun check (h.state.lookUp check.hash)] }
  | counted {i : Nat} {check : Check} {l : Lookup} (hi : h.checks[i]? = some ⟨check, l, .missed⟩) :
      Turn P h (.countFullCheck i) ⟨h.state.countFullCheck, h.checks.set i ⟨check, l, .counted⟩⟩
  | settled {i : Nat} {check : Check} {l : Lookup}
      (hi : h.checks[i]? = some ⟨check, l, .counted⟩) :
      Turn P h (.settle i)
        ⟨h.state.concluded P ⟨check, l, .counted⟩,
          h.checks.set i ⟨check, l, .answered (check.full P)⟩⟩
  | remembered (bytes : Bytes) :
      Turn P h (.remember bytes) { h with state := h.state.remember (P.sha256 bytes) bytes }
  | forgot : Turn P h .forget { h with state := h.state.forget }
  | passed (action : Action) : Turn P h action h

theorem act_turn (P : Platform) (h : Handle) (action : Action) :
    Turn P h action (h.act P action) := by
  cases action with
  | lookUp check => exact .looked check
  | countFullCheck i =>
      rw [act]
      split
      next hi => exact .counted hi
      next => exact .passed _
  | settle i =>
      rw [act]
      split
      next hi => exact .settled hi
      next => exact .passed _
  | remember bytes => exact .remembered bytes
  | forget => exact .forgot

theorem run_append (P : Platform) (h : Handle) (xs ys : List Action) :
    h.run P (xs ++ ys) = (h.run P xs).run P ys := List.foldl_append

theorem run_concat (P : Platform) (h : Handle) (xs : List Action) (x : Action) :
    h.run P (xs ++ [x]) = (h.run P xs).act P x := by
  simp [run]

/-! ## What holds after every turn -/

/-- The memory holds what is true and fits, and every answer is the full validator's. -/
structure Sound (P : Platform) (h : Handle) : Prop where
  truthful : h.state.Truthful P
  fits : h.state.memory.Fits List.length VERIFIED_CONTENT_BUDGET
  answers : ∀ r ∈ h.checks, ∀ answer, r.stage = .answered answer → answer = r.check.full P

theorem sound_new : Sound P .new := by
  refine ⟨?_, Memo.fits_empty, ?_⟩ <;> simp [new, State.Truthful, State.empty, Memo.empty]

theorem concluded_truthful {s : State} (hs : s.Truthful P) (r : Running) :
    (s.concluded P r).Truthful P := by
  unfold State.concluded
  split
  next hash bytes haccepted =>
    intro e he
    rcases Memo.mem_settle he with he | ⟨-, rfl⟩
    · exact hs e he
    · exact Check.sha256_of_accepted haccepted
  next => exact hs

theorem concluded_fits {s : State} (hs : s.memory.Fits List.length VERIFIED_CONTENT_BUDGET)
    (r : Running) : (s.concluded P r).memory.Fits List.length VERIFIED_CONTENT_BUDGET := by
  unfold State.concluded
  split
  · exact hs.settle _ _ _
  · exact hs

/-- A check is moved to where the answer it has, if any, is the full validator's. -/
theorem answers_set (hs : Sound P h) {i : Nat} {r : Running}
    (hr : ∀ answer, r.stage = .answered answer → answer = r.check.full P) :
    ∀ r' ∈ h.checks.set i r, ∀ answer, r'.stage = .answered answer → answer = r'.check.full P := by
  intro r' hr'
  rcases List.mem_or_eq_of_mem_set hr' with hold | rfl
  · exact hs.answers r' hold
  · exact hr

theorem Sound.turn (hs : Sound P h) {h' : Handle} (ht : Turn P h action h') : Sound P h' := by
  cases ht with
  | looked check =>
      refine ⟨hs.truthful, hs.fits, fun r hr answer hanswer => ?_⟩
      rcases List.mem_append.mp hr with hr | hr
      · exact hs.answers r hr answer hanswer
      · obtain rfl := List.mem_singleton.mp hr
        cases hcompared : check.compared (h.state.lookUp check.hash) with
        | none => simp [Running.begun, hcompared] at hanswer
        | some given =>
            simp only [Running.begun, hcompared, Option.elim, Stage.answered.injEq] at hanswer
            exact hanswer ▸ Check.full_of_compared hs.truthful hcompared
  | counted hi => exact ⟨hs.truthful, hs.fits, answers_set hs fun _ h => nomatch h⟩
  | settled hi =>
      refine ⟨concluded_truthful hs.truthful _, concluded_fits hs.fits _, answers_set hs ?_⟩
      intro answer hanswer
      exact (Stage.answered.inj hanswer).symm
  | remembered bytes =>
      refine ⟨fun e he => ?_, hs.fits.insert _ _, hs.answers⟩
      rcases Memo.mem_insert he with he | rfl
      · exact hs.truthful e he
      · rfl
  | forgot => exact ⟨fun e he => (nomatch he), Memo.Fits.forget, hs.answers⟩
  | passed => exact hs

theorem Sound.run (hs : Sound P h) (actions : List Action) : Sound P (h.run P actions) := by
  induction actions generalizing h with
  | nil => exact hs
  | cons action actions ih => exact ih (hs.turn (act_turn P h action))

/-! ## What is held after an erasure -/

/-- No lookup is ahead of the memory, and the first `n` were before it was last emptied. -/
structure Behind (n : Nat) (h : Handle) : Prop where
  began : n ≤ h.checks.length
  behind : ∀ i r, h.checks[i]? = some r →
    r.lookup.generation + (if i < n then 1 else 0) ≤ h.generation

theorem generation_concluded (s : State) (r : Running) :
    (s.concluded P r).memory.generation = s.memory.generation := by
  unfold State.concluded
  split
  · exact Memo.generation_settle _ _ _
  · rfl

theorem mem_concluded {s : State} {r : Running} {e : String × Bytes}
    (he : e ∈ (s.concluded P r).memory.entries) :
    e ∈ s.memory.entries ∨
      s.memory.generation = r.lookup.generation ∧ r.check.accepted P = some e := by
  unfold State.concluded at he
  split at he
  next hash bytes haccepted =>
    refine (Memo.mem_settle he).imp_right fun ⟨hgeneration, hentry⟩ => ⟨hgeneration, ?_⟩
    rw [haccepted, hentry]
  next => exact .inl he

theorem Behind.turn {n : Nat} (hb : Behind n h) {h' : Handle} (ht : Turn P h action h') :
    Behind n h' := by
  have hset : ∀ {i : Nat} {check : Check} {l : Lookup} {stage stage' : Stage},
      h.checks[i]? = some ⟨check, l, stage⟩ → ∀ j r,
      (h.checks.set i ⟨check, l, stage'⟩)[j]? = some r →
      r.lookup.generation + (if j < n then 1 else 0) ≤ h.generation := by
    intro i check l stage stage' hi j r hr
    rw [List.getElem?_set] at hr
    split_ifs at hr with hij hlt
    · obtain rfl := Option.some.inj hr
      exact hb.behind j ⟨check, l, stage⟩ (hij ▸ hi)
    · exact hb.behind j r hr
  cases ht with
  | looked check =>
      have hbegan := hb.began
      refine ⟨by simpa using Nat.le_succ_of_le hbegan, fun j r hr => ?_⟩
      rw [List.getElem?_append] at hr
      split_ifs at hr with hj
      · exact hb.behind j r hr
      · obtain rfl := List.mem_singleton.mp (List.mem_of_getElem? hr)
        rw [if_neg (by omega)]
        exact Nat.le_refl _
  | counted hi => exact ⟨by simpa using hb.began, hset hi⟩
  | settled hi =>
      refine ⟨by simpa using hb.began, fun j r hr => ?_⟩
      rw [generation, generation_concluded]
      exact hset hi j r hr
  | remembered bytes =>
      refine ⟨hb.began, fun j r hr => ?_⟩
      rw [generation, State.remember, State.insert, Memo.generation_insert]
      exact hb.behind j r hr
  | forgot => exact ⟨hb.began, fun j r hr => Nat.le_succ_of_le (hb.behind j r hr)⟩
  | passed => exact hb

theorem Behind.run {n : Nat} (hb : Behind n h) (actions : List Action) :
    Behind n (h.run P actions) := by
  induction actions generalizing h with
  | nil => exact hb
  | cons action actions ih => exact ih (hb.turn (act_turn P h action))

/-- Emptying the memory leaves every check that began behind it. -/
theorem Behind.forget {n : Nat} (hb : Behind n h) :
    Behind h.checks.length (h.act P .forget) := by
  refine ⟨Nat.le_refl _, fun i r hr => ?_⟩
  have hle : r.lookup.generation ≤ h.generation :=
    (Nat.le_add_right _ _).trans (hb.behind i r hr)
  show r.lookup.generation + _ ≤ h.generation + 1
  split_ifs <;> omega

/-- **What a turn puts into the memory** is not of a check that began before it was emptied. -/
theorem Behind.puts {n : Nat} (hb : Behind n h) {h' : Handle} (ht : Turn P h action h')
    {e : String × Bytes} (he : e ∈ h'.entries) : e ∈ h.entries ∨ PutsSince P n h action e := by
  cases ht with
  | looked check => exact .inl he
  | counted hi => exact .inl he
  | @settled i check l hi =>
      rcases mem_concluded he with he | ⟨hgeneration, haccepted⟩
      · exact .inl he
      · refine .inr (.inr ⟨i, _, rfl, ?_, hi, haccepted⟩)
        by_contra hn
        have hlt := hb.behind i _ hi
        rw [if_pos (by omega)] at hlt
        exact absurd hgeneration (Nat.ne_of_gt hlt)
  | remembered bytes =>
      rcases Memo.mem_insert he with he | rfl
      · exact .inl he
      · exact .inr (.inl ⟨rfl, rfl⟩)
  | forgot => exact nomatch he
  | passed => exact .inl he

/-- One of the turns put content into the memory that it did not hold before. -/
def PutWithin (P : Platform) (n : Nat) (h : Handle) (actions : List Action) (e : String × Bytes) :
    Prop :=
  ∃ done action rest, actions = done ++ action :: rest ∧
    e ∉ (h.run P done).entries ∧ e ∈ (h.run P (done ++ [action])).entries ∧
    PutsSince P n (h.run P done) action e

/-- What is held after turns, and was not held before them, was put there by one of them. -/
theorem Behind.putWithin {n : Nat} (hb : Behind n h) {actions : List Action} {e : String × Bytes}
    (hnew : e ∉ h.entries) (he : e ∈ (h.run P actions).entries) : PutWithin P n h actions e := by
  induction actions using List.reverseRecOn with
  | nil => exact absurd he hnew
  | append_singleton actions action ih =>
      by_cases hheld : e ∈ (h.run P actions).entries
      · obtain ⟨done, first, rest, rfl, hput⟩ := ih hheld
        exact ⟨done, first, rest ++ [action], by simp, hput⟩
      · refine ⟨actions, action, [], rfl, hheld, he, ?_⟩
        rw [run_concat] at he
        exact ((hb.run actions).puts (act_turn P _ action) he).resolve_left hheld

end Handle

/-- **Remembered content never changes an answer and respects erasure.**

    After any turns on one handle, every answer given is the full validator's on the same
    inputs; what is held is the sum of the entries and within the budget; and what is held after
    an erasure was put there after it, by a write or by a check that began after it. -/
theorem verified_content (P : Platform) (actions : List Action) :
    (∀ r ∈ (Handle.new.run P actions).checks, ∀ answer,
      r.stage = .answered answer → answer = r.check.full P) ∧
    (Handle.new.run P actions).state.memory.Fits List.length VERIFIED_CONTENT_BUDGET ∧
    ∀ before after, actions = before ++ .forget :: after →
      ∀ e ∈ (Handle.new.run P actions).entries,
        Handle.PutWithin P (Handle.new.run P before).checks.length
          (Handle.new.run P (before ++ [.forget])) after e := by
  have hsound := Handle.sound_new.run (P := P) actions
  refine ⟨hsound.answers, hsound.fits, ?_⟩
  rintro before after rfl e he
  have hnew : Handle.new.Behind 0 :=
    ⟨Nat.zero_le _, fun _ _ hr => absurd (List.mem_of_getElem? hr) List.not_mem_nil⟩
  rw [Handle.run_concat]
  refine (hnew.run before).forget.putWithin List.not_mem_nil ?_
  rwa [show before ++ Action.forget :: after = (before ++ [.forget]) ++ after by simp,
    Handle.run_append, Handle.run_concat] at he

/-- A check that an erasure overtakes, and one of the same content after it. -/
def overtaken : List Action :=
  let check := Check.recorded [104] (samplePlatform.sha256 [104])
  [.lookUp check, .countFullCheck 0, .forget, .settle 0,
    .lookUp check, .countFullCheck 1, .settle 1]

theorem verified_content_overtaken :
    (Handle.new.run samplePlatform (overtaken.take 4)).entries = [] ∧
    ∃ e ∈ (Handle.new.run samplePlatform overtaken).entries,
      Handle.PutWithin samplePlatform 1
        (Handle.new.run samplePlatform (overtaken.take 3)) (overtaken.drop 3) e :=
  ⟨by decide +kernel, (samplePlatform.sha256 [104], [104]), by decide +kernel,
    (verified_content samplePlatform overtaken).2.2 (overtaken.take 2) (overtaken.drop 3) rfl _
      (by decide +kernel)⟩

end VerifiedContent

end Eventlog

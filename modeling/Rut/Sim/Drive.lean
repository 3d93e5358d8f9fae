import Rut.Sim.Basic

/-!
# Driving a handler offline

A translation of `drive_handler_to_completion` of `simulate_engine.cc` with all it calls. The
simulator calls a handler, resumes it with a made-up event each time it yields, and compares the
result with the captured response. A timed wait for any event can end in two ways, so both are
tried, the event before the timer, and each from the frame as the handler has left it.

A handler is any function of the connection, its frame and the request; of a connection it reads the
address of the peer. `Ends` says where a sequence of resume events leads, without a bound and without
a search. The search finds a matching end if there is one with fewer yields than the bound
(`driveHandlerToCompletion_matched_iff`): the bound counts the calls of the handler, and the call
after the last yield is one of them.
-/

namespace Rut.Sim

/-! ## Results of a handler -/

inductive HandlerAction where
  | returnStatus | forward | yield
  | other (byte : UInt8)
deriving DecidableEq, Repr

def HandlerAction.ofByte (b : UInt8) : HandlerAction :=
  if b = 0 then .returnStatus else if b = 1 then .forward else if b = 2 then .yield else .other b

inductive YieldKind where
  | httpGet | httpPost | forward | timer | any | recv | send
  | upstreamConnect | upstreamRecv | upstreamSend
  | other (byte : UInt8)
deriving DecidableEq, Repr

def YieldKind.ofByte (b : UInt8) : YieldKind :=
  if b = 0 then .httpGet else if b = 1 then .httpPost else if b = 2 then .forward
  else if b = 3 then .timer else if b = 4 then .any else if b = 5 then .recv
  else if b = 6 then .send else if b = 7 then .upstreamConnect else if b = 8 then .upstreamRecv
  else if b = 9 then .upstreamSend else .other b

def YieldKind.toNat : YieldKind → Nat
  | .httpGet => 0
  | .httpPost => 1
  | .forward => 2
  | .timer => 3
  | .any => 4
  | .recv => 5
  | .send => 6
  | .upstreamConnect => 7
  | .upstreamRecv => 8
  | .upstreamSend => 9
  | .other b => b.toNat

structure HandlerResult where
  action : HandlerAction
  statusCode : UInt16
  upstreamId : UInt16
  nextState : UInt16
  yieldKind : YieldKind
deriving DecidableEq, Repr

/-- `HandlerResult::unpack`. -/
def HandlerResult.unpack (v : UInt64) : HandlerResult where
  action := .ofByte v.toUInt8
  statusCode := (v >>> 8).toUInt16
  upstreamId := (v >>> 24).toUInt16
  nextState := (v >>> 40).toUInt16
  yieldKind := .ofByte (v >>> 56).toUInt8

/-- `HandlerResult{}`, which is a status of 0. -/
def HandlerResult.zero : HandlerResult := .unpack 0

/-- `yield_payload_u32`. -/
def HandlerResult.yieldPayload (r : HandlerResult) : Nat :=
  r.statusCode.toNat + r.upstreamId.toNat * 2 ^ 16

/-! ## Frames -/

/-- `HandlerCtx` with the slots behind it, as one `SimHandlerFrame`. -/
structure SimHandlerFrame where
  state : UInt16 := 0
  slotCount : Nat := 0
  resumeEventKind : Nat := 0
  resumeEventResult : Int := 0
  routeParams : List RouteParam := []
  slots : List UInt64 := []
deriving DecidableEq, Repr

/-- What a handler can read of a connection. -/
structure SimConnection where
  peerAddr : UInt32 := 0
deriving DecidableEq, Repr

def copySimConnectionState (src : SimConnection) : SimConnection := { peerAddr := src.peerAddr }

/-- A call of compiled code: connection, frame and request head to a packed result and the frame it
leaves. -/
abbrev HandlerCode := SimConnection → SimHandlerFrame → Str → UInt64 × SimHandlerFrame

def syntheticResumeResult : YieldKind → Int
  | .timer | .upstreamConnect => 0
  | _ => 1

def applySyntheticResume (frame : SimHandlerFrame) (yielded : HandlerResult) (kind : YieldKind) :
    SimHandlerFrame :=
  { frame with
    resumeEventKind := kind.toNat
    resumeEventResult := syntheticResumeResult kind
    state := yielded.nextState }

/-! ## Verdicts -/

inductive Verdict where
  | matched | mismatch | failed | unsupported
deriving DecidableEq, Repr

structure ManifestUpstream where
  id : UInt16
  name : Str
deriving DecidableEq, Repr

/-- The captured response. -/
structure CaptureEntry where
  rawHeaders : Str := []
  respStatus : UInt16 := 0
  upstreamName : Str := []
deriving DecidableEq, Repr

structure SimulateResult where
  action : HandlerAction := .returnStatus
  expectedStatus : UInt16 := 0
  actualStatus : UInt16 := 0
  expectedUpstream : Str := []
  actualUpstream : Str := []
  yieldCount : Nat := 0
  verdict : Verdict := .failed
deriving DecidableEq, Repr

/-- `copy_cstr` into an array of `size` bytes. -/
def copyCstr (size : Nat) (s : Str) : Str := (cstr s).take (size - 1)

def findUpstream (upstreams : List ManifestUpstream) (id : UInt16) : Option ManifestUpstream :=
  upstreams.find? (·.id = id)

def finalizeHandlerResult (upstreams : List ManifestUpstream) (entry : CaptureEntry)
    (result : SimulateResult) (unpacked : HandlerResult) : SimulateResult :=
  match unpacked.action with
  | .yield => { result with verdict := .failed }
  | .returnStatus =>
    { result with
      action := .returnStatus
      actualStatus := unpacked.statusCode
      verdict := if unpacked.statusCode = entry.respStatus ∧ cstr entry.upstreamName = [] then
        .matched else .mismatch }
  | .forward =>
    match findUpstream upstreams unpacked.upstreamId with
    | none => { result with action := .forward, verdict := .failed }
    | some upstream =>
      let actual := copyCstr 32 upstream.name
      { result with
        action := .forward
        actualUpstream := actual
        verdict := if actual = result.expectedUpstream then .matched else .mismatch }
  | .other b => { result with action := .other b, verdict := .unsupported }

def nonMatchVerdictRank : Verdict → Nat
  | .mismatch => 0
  | .unsupported => 1
  | .failed => 2
  | .matched => 3

def preferNonMatchResult (lhs rhs : SimulateResult) : SimulateResult :=
  if nonMatchVerdictRank lhs.verdict ≤ nonMatchVerdictRank rhs.verdict then lhs else rhs

/-! ## The search -/

section

variable (upstreams : List ManifestUpstream) (fn : HandlerCode) (entry : CaptureEntry)

/-- The loop of `drive_handler_to_completion`, with `left` iterations to go. The calls it makes of
the function itself find `left = 0` where the source compares `yield_count` with `max_yields`. -/
def driveLoop : Nat → SimConnection → SimHandlerFrame → HandlerResult → SimulateResult →
    SimulateResult
  | 0, _, _, unpacked, result => finalizeHandlerResult upstreams entry result unpacked
  | left + 1, conn, frame, _, result =>
    let (packed, frame) := fn conn frame entry.rawHeaders
    let unpacked := HandlerResult.unpack packed
    if unpacked.action ≠ .yield then finalizeHandlerResult upstreams entry result unpacked
    else
      let result := { result with yieldCount := result.yieldCount + 1 }
      if unpacked.yieldKind = .any ∧ unpacked.yieldPayload ≠ 0 then
        let candidate := fun kind =>
          if left = 0 then { result with verdict := .failed }
          else driveLoop left (copySimConnectionState conn)
            (applySyntheticResume frame unpacked kind) .zero result
        let recvResult := candidate .recv
        if recvResult.verdict = .matched then recvResult
        else
          let timerResult := candidate .timer
          if timerResult.verdict = .matched then timerResult
          else preferNonMatchResult recvResult timerResult
      else
        let resumeKind := if unpacked.yieldKind = .any then .recv else unpacked.yieldKind
        driveLoop left conn (applySyntheticResume frame unpacked resumeKind) unpacked result

def driveHandlerToCompletion (conn : SimConnection) (frame : SimHandlerFrame)
    (result : SimulateResult) (maxYields : Nat) : SimulateResult :=
  if result.yieldCount ≥ maxYields then { result with verdict := .failed }
  else driveLoop upstreams fn entry (maxYields - result.yieldCount) conn frame .zero result

end

/-! ## What a handler can do -/

/-- The events that can end a wait. -/
def resumeKinds (r : HandlerResult) : List YieldKind :=
  if r.yieldKind = .any then if r.yieldPayload ≠ 0 then [.recv, .timer] else [.recv]
  else [r.yieldKind]

section

variable {upstreams : List ManifestUpstream} {fn : HandlerCode} {entry : CaptureEntry}

/-- Resumed by these events, one after the other, the handler ends with this result. -/
inductive Ends (fn : HandlerCode) (conn : SimConnection) (head : Str) :
    SimHandlerFrame → List YieldKind → HandlerResult → Prop where
  | done {frame : SimHandlerFrame} {unpacked : HandlerResult}
      (hcall : HandlerResult.unpack (fn conn frame head).1 = unpacked)
      (hdone : unpacked.action ≠ .yield) : Ends fn conn head frame [] unpacked
  | resume {frame : SimHandlerFrame} {yielded final : HandlerResult} {kind : YieldKind}
      {kinds : List YieldKind}
      (hcall : HandlerResult.unpack (fn conn frame head).1 = yielded)
      (hyield : yielded.action = .yield) (hkind : kind ∈ resumeKinds yielded)
      (hrest : Ends fn conn head (applySyntheticResume (fn conn frame head).2 yielded kind)
        kinds final) :
      Ends fn conn head frame (kind :: kinds) final

/-- What `finalize_handler_result` takes for a match. -/
def Accepts (upstreams : List ManifestUpstream) (entry : CaptureEntry) (expectedUpstream : Str)
    (final : HandlerResult) : Prop :=
  match final.action with
  | .returnStatus => final.statusCode = entry.respStatus ∧ cstr entry.upstreamName = []
  | .forward => ∃ upstream, findUpstream upstreams final.upstreamId = some upstream ∧
      copyCstr 32 upstream.name = expectedUpstream
  | _ => False

theorem finalizeHandlerResult_matched_iff {result : SimulateResult} {unpacked : HandlerResult} :
    (finalizeHandlerResult upstreams entry result unpacked).verdict = .matched ↔
      Accepts upstreams entry result.expectedUpstream unpacked := by
  unfold finalizeHandlerResult Accepts
  cases unpacked.action with
  | yield => simp
  | other b => simp
  | returnStatus =>
    dsimp only
    split <;> simp_all
  | forward =>
    dsimp only
    cases findUpstream upstreams unpacked.upstreamId with
    | none => simp
    | some upstream =>
      dsimp only
      split <;> simp_all

theorem preferNonMatchResult_ne {lhs rhs : SimulateResult} (hl : lhs.verdict ≠ .matched)
    (hr : rhs.verdict ≠ .matched) : (preferNonMatchResult lhs rhs).verdict ≠ .matched := by
  unfold preferNonMatchResult
  split <;> assumption

/-- Of two candidates, one that matches is preferred. -/
theorem candidates_matched_iff {recvResult timerResult : SimulateResult} :
    (if recvResult.verdict = .matched then recvResult
      else if timerResult.verdict = .matched then timerResult
      else preferNonMatchResult recvResult timerResult).verdict = .matched ↔
      recvResult.verdict = .matched ∨ timerResult.verdict = .matched := by
  split
  · next hrecv => exact iff_of_true hrecv (.inl hrecv)
  · next hrecv =>
    split
    · next htimer => exact iff_of_true htimer (.inr htimer)
    · next htimer =>
      exact iff_of_false (preferNonMatchResult_ne hrecv htimer) (not_or.mpr ⟨hrecv, htimer⟩)

variable {conn : SimConnection} {frame : SimHandlerFrame} {expected : Str}

/-- A call that does not yield is the end. -/
theorem ends_of_done {head : Str} {kinds : List YieldKind} {final : HandlerResult}
    (hdone : (HandlerResult.unpack (fn conn frame head).1).action ≠ .yield) :
    Ends fn conn head frame kinds final ↔
      kinds = [] ∧ final = HandlerResult.unpack (fn conn frame head).1 := by
  constructor
  · intro h
    cases h with
    | done hcall _ => exact ⟨rfl, hcall.symm⟩
    | resume hcall hyield _ _ => exact absurd (hcall ▸ hyield) hdone
  · rintro ⟨rfl, rfl⟩
    exact .done rfl hdone

/-- After a call that yields there is one more event. -/
theorem ends_of_yield {head : Str} {kinds : List YieldKind} {final : HandlerResult}
    (hyield : (HandlerResult.unpack (fn conn frame head).1).action = .yield) :
    Ends fn conn head frame kinds final ↔
      ∃ kind ∈ resumeKinds (HandlerResult.unpack (fn conn frame head).1), ∃ rest,
        kinds = kind :: rest ∧ Ends fn conn head (applySyntheticResume (fn conn frame head).2
          (HandlerResult.unpack (fn conn frame head).1) kind) rest final := by
  constructor
  · intro h
    cases h with
    | done hcall hdone => exact absurd hyield (hcall ▸ hdone)
    | resume hcall _ hkind hrest =>
      subst hcall
      exact ⟨_, hkind, _, rfl, hrest⟩
  · rintro ⟨kind, hkind, rest, rfl, hrest⟩
    exact .resume rfl hyield hkind hrest

/-- Some events, fewer than `left`, lead to a result that is accepted. -/
def CanMatch (upstreams : List ManifestUpstream) (fn : HandlerCode) (entry : CaptureEntry)
    (conn : SimConnection) (expectedUpstream : Str) (left : Nat) (frame : SimHandlerFrame) : Prop :=
  ∃ kinds final, kinds.length < left ∧ Ends fn conn entry.rawHeaders frame kinds final ∧
    Accepts upstreams entry expectedUpstream final

theorem canMatch_of_done {left : Nat}
    (hdone : (HandlerResult.unpack (fn conn frame entry.rawHeaders).1).action ≠ .yield) :
    CanMatch upstreams fn entry conn expected (left + 1) frame ↔
      Accepts upstreams entry expected
        (HandlerResult.unpack (fn conn frame entry.rawHeaders).1) := by
  constructor
  · rintro ⟨kinds, final, -, hends, haccepts⟩
    obtain ⟨-, rfl⟩ := (ends_of_done hdone).mp hends
    exact haccepts
  · intro haccepts
    exact ⟨[], _, Nat.succ_pos left, (ends_of_done hdone).mpr ⟨rfl, rfl⟩, haccepts⟩

theorem canMatch_of_yield {left : Nat}
    (hyield : (HandlerResult.unpack (fn conn frame entry.rawHeaders).1).action = .yield) :
    CanMatch upstreams fn entry conn expected (left + 1) frame ↔
      ∃ kind ∈ resumeKinds (HandlerResult.unpack (fn conn frame entry.rawHeaders).1),
        CanMatch upstreams fn entry conn expected left
          (applySyntheticResume (fn conn frame entry.rawHeaders).2
            (HandlerResult.unpack (fn conn frame entry.rawHeaders).1) kind) := by
  constructor
  · rintro ⟨kinds, final, hlen, hends, haccepts⟩
    obtain ⟨kind, hkind, rest, rfl, hrest⟩ := (ends_of_yield hyield).mp hends
    exact ⟨kind, hkind, rest, final, Nat.lt_of_succ_lt_succ hlen, hrest, haccepts⟩
  · rintro ⟨kind, hkind, rest, final, hlen, hrest, haccepts⟩
    exact ⟨kind :: rest, final, Nat.succ_lt_succ hlen,
      (ends_of_yield hyield).mpr ⟨kind, hkind, rest, rfl, hrest⟩, haccepts⟩

theorem not_canMatch_zero : ¬ CanMatch upstreams fn entry conn expected 0 frame :=
  fun ⟨_, _, hlen, _⟩ => Nat.not_lt_zero _ hlen

/-! ## Soundness and completeness of the search -/

/-- The loop finds a match if one is left. It is entered with a result that is not accepted: with
none, or with the yield that the last iteration has resumed. -/
theorem driveLoop_matched_iff (left : Nat) {unpacked : HandlerResult} {result : SimulateResult}
    (hlast : left = 0 → unpacked.action = .yield) :
    (driveLoop upstreams fn entry left conn frame unpacked result).verdict = .matched ↔
      CanMatch upstreams fn entry conn result.expectedUpstream left frame := by
  induction left generalizing conn frame unpacked result with
  | zero =>
    refine iff_of_false ?_ not_canMatch_zero
    rw [driveLoop, finalizeHandlerResult_matched_iff, Accepts, hlast rfl]
    exact id
  | succ left ih =>
    rw [driveLoop]
    dsimp only
    by_cases hdone : (HandlerResult.unpack (fn conn frame entry.rawHeaders).1).action = .yield
    swap
    · rw [if_pos hdone, finalizeHandlerResult_matched_iff, canMatch_of_done hdone]
    · rw [if_neg (not_not.mpr hdone), canMatch_of_yield hdone]
      generalize hunpacked :
        HandlerResult.unpack (fn conn frame entry.rawHeaders).1 = yielded at hdone ⊢
      generalize (fn conn frame entry.rawHeaders).2 = after
      -- what is tried after this yield, with one iteration less
      have hcandidate : ∀ kind,
          (if left = 0 then
            ({ result with yieldCount := result.yieldCount + 1, verdict := .failed } :
              SimulateResult)
          else driveLoop upstreams fn entry left (copySimConnectionState conn)
            (applySyntheticResume after yielded kind) .zero
            { result with yieldCount := result.yieldCount + 1 }).verdict = .matched ↔
          CanMatch upstreams fn entry conn result.expectedUpstream left
            (applySyntheticResume after yielded kind) := by
        intro kind
        split
        · next hleft =>
          subst hleft
          exact iff_of_false nofun not_canMatch_zero
        · next hleft => exact ih fun h => absurd h hleft
      by_cases htimed : yielded.yieldKind = .any ∧ yielded.yieldPayload ≠ 0
      · rw [if_pos htimed]
        have hkinds : resumeKinds yielded = [.recv, .timer] := by
          rw [resumeKinds, if_pos htimed.1, if_pos htimed.2]
        rw [hkinds]
        simp only [List.mem_cons, List.not_mem_nil, or_false, exists_eq_or_imp, exists_eq_left]
        rw [candidates_matched_iff, hcandidate, hcandidate]
      · rw [if_neg htimed]
        have hkinds : resumeKinds yielded =
            [if yielded.yieldKind = .any then .recv else yielded.yieldKind] := by
          rw [resumeKinds]
          split
          · next hany => rw [if_neg fun hpayload => htimed ⟨hany, hpayload⟩]
          · rfl
        rw [hkinds]
        simp only [List.mem_singleton, exists_eq_left]
        exact ih fun _ => hdone

/-- The simulator reports a match exactly if some sequence of resume events with fewer yields than
the bound leads the handler to a result that matches. -/
theorem driveHandlerToCompletion_matched_iff (upstreams : List ManifestUpstream) (fn : HandlerCode)
    (entry : CaptureEntry) (conn : SimConnection) (frame : SimHandlerFrame)
    (result : SimulateResult) (maxYields : Nat) :
    (driveHandlerToCompletion upstreams fn entry conn frame result maxYields).verdict = .matched ↔
      ∃ kinds final, result.yieldCount + kinds.length < maxYields ∧
        Ends fn conn entry.rawHeaders frame kinds final ∧
        (finalizeHandlerResult upstreams entry result final).verdict = .matched := by
  have hcan : CanMatch upstreams fn entry conn result.expectedUpstream
      (maxYields - result.yieldCount) frame ↔
      ∃ kinds final, result.yieldCount + kinds.length < maxYields ∧
        Ends fn conn entry.rawHeaders frame kinds final ∧
        (finalizeHandlerResult upstreams entry result final).verdict = .matched := by
    simp only [CanMatch, finalizeHandlerResult_matched_iff, Nat.lt_sub_iff_add_lt']
  rw [← hcan, driveHandlerToCompletion]
  split
  · next hspent =>
    rw [Nat.sub_eq_zero_of_le hspent]
    exact iff_of_false nofun not_canMatch_zero
  · next hspent => exact driveLoop_matched_iff _ (by omega)

end

/-- A handler that sleeps once and then answers 200. -/
def sleepsOnce : HandlerCode := fun _ frame _ =>
  if frame.state = 0 then (0x0300010000000002, frame) else (0xc800, frame)

/-- With a bound of one yield, a handler that yields once and then answers as captured is reported
as failed. -/
theorem driveHandlerToCompletion_sleepsOnce :
    (∃ kinds final, kinds.length ≤ 1 ∧ Ends sleepsOnce {} [] {} kinds final ∧
      (finalizeHandlerResult [] { respStatus := 200 } {} final).verdict = .matched) ∧
    (driveHandlerToCompletion [] sleepsOnce { respStatus := 200 } {} {} {} 1).verdict = .failed := by
  refine ⟨⟨[.timer], _, Nat.le_refl 1, .resume rfl ?_ ?_ (.done rfl ?_), ?_⟩, ?_⟩ <;> decide

end Rut.Sim

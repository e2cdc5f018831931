import Carbon.Diag.Messages
import Carbon.Printf.Truncation

namespace Carbon

namespace Diag

open Printf (Arg characters vsnprintf vfctprintf)

variable (d : Declaration) (printFloatingPoint : BitVec 64 → Printf.Directive → Bool → List UInt8)

-- A call DIAG(format, args).
structure Call where
  format : List UInt8
  args : List Arg

-- The stream length of carbon_diag_push: the text formatted into no buffer.
def Call.len (call : Call) : Option Int :=
  (vsnprintf printFloatingPoint none 0 call.format call.args).map fun r => r.2.1

-- The characters vfctprintf hands to fifo_output. The list it gets has been ended
-- but, as it was passed by value, still stands in front of the first argument.
def Call.output (call : Call) : Option (List UInt8) :=
  (vfctprintf printFloatingPoint call.format call.args).bind fun r => r.1.function

-- carbon_diag_push up to the first character: the int len is the number of
-- slots the constructor of ContextPush asks for.
def printStep (s : State) (p : Nat) (call : Call) : Option State :=
  (call.len printFloatingPoint).bind fun len =>
    (call.output printFloatingPoint).bind fun message =>
      match s.rest p with
      | some _ => none
      | none =>
          let nObjects := (BitVec.ofInt 32 len).toNat
          (Fifo.step d.fifo s.diagFifo (.openPush p nObjects)).map fun diagFifo =>
            if (ContextPush.construct d.fifo s.diagFifo.fifo nObjects).2.isOverflow then
              { s with diagFifo := diagFifo, rest := Function.update s.rest p (some []) }
            else
              { diagFifo := diagFifo, rest := Function.update s.rest p (some message)
                accepted := s.accepted ++ [message] }

inductive PrintEvent
  | print (p : Nat) (call : Call)
  | output (p : Nat)
  | close (p : Nat)
  | popLook
  | popRemove (ch : UInt8)
  | popAdvance

def printSystem : Transition.System State PrintEvent where
  initial s := ∃ buffer, s = start buffer
  step s
    | .print p call => printStep d printFloatingPoint s p call
    | .output p => outputStep d s p
    | .close p => closeStep d s p
    | .popLook => popStep d s .popLook
    | .popRemove ch => popStep d s (.popRemove ch)
    | .popAdvance => popStep d s .popAdvance

-- The texts the FIFO is meant for; an undefined call prints none.
def Fits : PrintEvent → Prop
  | .print _ call => ∀ r, characters printFloatingPoint call.format call.args = some r →
      1 ≤ r.1.length ∧ r.1.length + 8 ≤ d.nElements
  | _ => True

instance : DecidablePred (Fits d printFloatingPoint)
  | .print _ call => decidable_of_iff ((characters printFloatingPoint call.format call.args).all fun r =>
      decide (1 ≤ r.1.length ∧ r.1.length + 8 ≤ d.nElements)) (by
        simp only [Option.all_eq_true, decide_eq_true_eq]
        rfl)
  | .output _ | .close _ | .popLook | .popRemove _ | .popAdvance => isTrue trivial

variable {d printFloatingPoint} {s t : State}

theorem Call.len_eq {call : Call} {r : List UInt8 × List Printf.Store}
    (hcall : characters printFloatingPoint call.format call.args = some r) (hlength : r.1.length < 2 ^ 31) :
    call.len printFloatingPoint = some (r.1.length : Int) := by
  obtain ⟨output, hout⟩ := Printf.vsnprintf_length hcall hlength
  rw [Call.len, hout, Option.map_some]

theorem Call.output_eq {call : Call} {r : List UInt8 × List Printf.Store}
    (hcall : characters printFloatingPoint call.format call.args = some r) (hlength : r.1.length < 2 ^ 31) :
    call.output printFloatingPoint = some r.1 := by
  obtain ⟨output, hout, hfunction⟩ := Printf.vfctprintf_eq hcall hlength
  rw [Call.output, hout, Option.bind_some, hfunction]

theorem Call.len_undefined {call : Call} (hcall : characters printFloatingPoint call.format call.args = none) :
    call.len printFloatingPoint = none := by
  rw [Call.len, vsnprintf, Printf.vsnprintfGadget_eq printFloatingPoint rfl, hcall]
  rfl

-- The second formatting puts exactly the characters the first has counted: a
-- print is a push of the text.
theorem printStep_eq {p : Nat} {call : Call} {r : List UInt8 × List Printf.Store}
    (hcall : characters printFloatingPoint call.format call.args = some r) (hlength : r.1.length < 2 ^ 31) :
    printStep d printFloatingPoint s p call = pushStep d s p r.1 := by
  have hobjects : (BitVec.ofInt 32 (r.1.length : Int)).toNat = r.1.length := by
    rw [BitVec.toNat_ofInt]
    omega
  unfold printStep
  rw [Call.len_eq hcall hlength, Call.output_eq hcall hlength, Option.bind_some, Option.bind_some, hobjects]
  rfl

theorem printStep_cases {p : Nat} {call : Call} (hfits : Fits d printFloatingPoint (.print p call))
    (h : printStep d printFloatingPoint s p call = some t) :
    ∃ r, characters printFloatingPoint call.format call.args = some r ∧ Lengths d (.push p r.1) ∧
      pushStep d s p r.1 = some t := by
  cases hcall : characters printFloatingPoint call.format call.args with
  | none =>
      rw [printStep, Call.len_undefined hcall] at h
      cases h
  | some r =>
      have hlengths := hfits r hcall
      have harray := d.array
      refine ⟨r, rfl, hlengths, ?_⟩
      rw [← printStep_eq hcall (by omega)]
      exact h

-- The runs of the callers of DIAG are runs of the FIFO with the texts as messages.
theorem system_of_prints (hs : (printSystem d printFloatingPoint).ReachableBy
    (fun _ e => Fits d printFloatingPoint e) s) :
    (system d).ReachableBy (fun _ e => Lengths d e) s := by
  refine Transition.System.ReachableBy.map (M := printSystem d printFloatingPoint) (N := system d) id
    (fun s hinit => hinit) (fun s e t _ hfits hstep => .inr ?_) hs
  cases e with
  | print p call =>
      obtain ⟨r, _, hlengths, hpush⟩ := printStep_cases hfits hstep
      exact ⟨.push p r.1, hlengths, hpush⟩
  | output p => exact ⟨.output p, trivial, hstep⟩
  | close p => exact ⟨.close p, trivial, hstep⟩
  | popLook => exact ⟨.popLook, trivial, hstep⟩
  | popRemove ch => exact ⟨.popRemove ch, trivial, hstep⟩
  | popAdvance => exact ⟨.popAdvance, trivial, hstep⟩

-- Whatever the order in which the callers print and the other core pops, the
-- bytes popped are a prefix of the formatted texts in the order of their
-- reservations. A text is dropped as a whole, and exactly when it is longer than the free slots.
theorem diag_prints_whole (hmultiple : 8 ∣ d.nElements)
    (hs : (printSystem d printFloatingPoint).ReachableBy (fun _ e => Fits d printFloatingPoint e) s) :
    s.popped <+: s.accepted.flatten ∧
      ∀ p call t, Fits d printFloatingPoint (.print p call) →
        (printSystem d printFloatingPoint).step s (.print p call) = some t →
          ∃ r, characters printFloatingPoint call.format call.args = some r ∧
            (Rejected t p ↔ s.free d < r.1.length) ∧
            t.accepted = if s.free d < r.1.length then s.accepted else s.accepted ++ [r.1] := by
  have hinv := inv_of_reachable hmultiple (system_of_prints hs)
  refine ⟨hinv.popped_initial, fun p call t hfits hstep => ?_⟩
  obtain ⟨r, hcall, hlengths, hpush⟩ := printStep_cases hfits hstep
  obtain ⟨hrejected, hrefused, haccepted⟩ := hinv.push_outcome hlengths hpush
  refine ⟨r, hcall, hrejected, ?_⟩
  split
  · exact (hrefused (hrejected.mpr ‹_›)).2.2
  · exact haccepted (fun h => absurd (hrejected.mp h) ‹_›)

-- Two callers on a ring of sixteen bytes, of DIAG("%d", 42) and DIAG("!").
def twoCallers : List PrintEvent :=
  [.print 0 ⟨CString.text "%d" ++ [0], [.word 42]⟩, .print 1 ⟨CString.text "!" ++ [0], []⟩, .output 0, .output 1,
    .close 1, .popLook, .output 0, .close 0, .popLook, .popRemove 0, .popAdvance, .popLook, .popRemove 0,
    .popAdvance]

theorem twoCallers_runs : ((printSystem sixteen fun _ _ _ => []).runBy
    (fun _ e => Fits sixteen (fun _ _ _ => []) e) (start fun _ => 0) twoCallers).isSome := by
  decide +kernel

theorem diag_prints_whole_run :
    ∃ s, (printSystem sixteen fun _ _ _ => []).runBy (fun _ e => Fits sixteen (fun _ _ _ => []) e)
        (start fun _ => 0) twoCallers = some s ∧
      s.accepted = [CString.text "42", CString.text "!"] ∧ s.popped = CString.text "42" ∧
      s.popped <+: s.accepted.flatten := by
  have hstart : (printSystem sixteen fun _ _ _ => []).ReachableBy
      (fun _ e => Fits sixteen (fun _ _ _ => []) e) (start fun _ => 0) := .start ⟨_, rfl⟩
  obtain ⟨hinitial, _⟩ := diag_prints_whole (by decide) (hstart.after twoCallers twoCallers_runs)
  exact ⟨_, (Option.some_get twoCallers_runs).symm, by decide +kernel, by decide +kernel, hinitial⟩

end Diag

end Carbon

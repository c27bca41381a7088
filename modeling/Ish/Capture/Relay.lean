import Ish.Lib.EState
import Ish.Capture.Output

/-!
# Relay — typed input on its way to a captured command

The relay reads what is typed on the real terminal and writes it to the master
of the capture terminal. Suspend, interrupt and quit characters become signals
where the line discipline would have made signals of them. Whatever the master
does not take stays in `input_tail` and is offered again. What the calls answer
is up to `Outside`; the relay's state also records what was read, and what the
master took and which signals were sent, in this order.
-/

namespace Ish.Capture

open Ish.Lib List

/-! ## The outside -/

inductive Errno where
  | INTR
  | AGAIN
  | Io
  | other (code : Nat)
  deriving Repr, DecidableEq

abbrev Pid := Nat

inductive Signal where
  | INT
  | QUIT
  | STOP
  deriving Repr, DecidableEq

/-- What `poll` reports of one descriptor. -/
structure Events where
  input : Bool := false
  output : Bool := false
  hangup : Bool := false
  error : Bool := false
  deriving Repr, DecidableEq

def Events.isEmpty (events : Events) : Bool :=
  !(events.input || events.output || events.hangup || events.error)

/-- What `poll` reports of the stop pipe, the master and the real terminal. -/
structure Ready where
  stop : Events := {}
  master : Events := {}
  terminal : Events := {}
  deriving Repr, DecidableEq

/-- The modes of the slave that matter here. -/
structure Modes where
  isig : Bool
  vsusp : UInt8
  vintr : UInt8
  vquit : UInt8
  deriving Repr, DecidableEq

/-- The answer of every call, by the number of calls before it. A write takes at most what it
was given. -/
structure Outside where
  paused : Nat → Bool
  poll : Nat → Except Errno Ready
  readTerminal : Nat → Except Errno (List UInt8)
  readMaster : Nat → Except Errno (List UInt8)
  writeTerminal : Nat → Option Errno
  write : Nat → List UInt8 → Except Errno Nat
  write_le : ∀ now bytes written, write now bytes = .ok written → written ≤ bytes.length
  slaveModes : Nat → Option Modes
  foregroundGroup : Nat → Option Pid
  ownGroup : Pid

/-! ## The state -/

/-- What to do when a signal character is found in forwarded input. -/
inductive SignalAction where
  | stop (foreground : Pid)
  | interrupt (signal : Signal)
  deriving Repr, DecidableEq

/-- The answers of `suspend_key` and `interrupt_keys`. -/
structure Keys where
  suspend : Option (UInt8 × Pid)
  interrupt : Option (UInt8 × UInt8)
  deriving Repr, DecidableEq

structure Pump where
  buffer : OutputBuffer := {}
  error : Option Errno := none
  open_ : Bool := true
  input_tail : List UInt8 := []
  input_blocked : Bool := false
  deriving Repr, DecidableEq

/-- What became of a typed byte. -/
inductive Out where
  | accepted (byte : UInt8)
  | signal (keys : Keys) (byte : UInt8) (action : SignalAction)
  deriving Repr, DecidableEq

def Out.byte : Out → UInt8
  | .accepted byte => byte
  | .signal _ byte _ => byte

structure Relay where
  pump : Pump := {}
  /-- What was read from the real terminal. -/
  typed : List UInt8 := []
  /-- What the master took and the signals sent, oldest first. -/
  outs : List Out := []
  /-- How many calls were made. -/
  clock : Nat := 0
  deriving Repr, DecidableEq

/-- An error is a call that has not returned yet. -/
abbrev RelayM := EStateM Unit Relay

def modifyPump (f : Pump → Pump) : RelayM Unit :=
  modify fun r => { r with pump := f r.pump }

def onlyIf (condition : Bool) (x : RelayM Unit) : RelayM Unit :=
  if condition then x else pure ()

/-- `condition && x`, where `x` is a call. -/
def whenAll (condition : Bool) (x : RelayM Bool) : RelayM Bool :=
  if condition then x else pure false

/-- A call that changes nothing here. -/
def ask {α : Type} (answer : Nat → α) : RelayM α :=
  modifyGet fun r => (answer r.clock, { r with clock := r.clock + 1 })

section

variable (outside : Outside)

def readTerminal : RelayM (Except Errno (List UInt8)) := do
  let result ← ask outside.readTerminal
  match result with
  | .ok bytes =>
    modify fun r => { r with typed := r.typed ++ bytes }
    return .ok bytes
  | .error e => return .error e

def write (bytes : List UInt8) : RelayM (Except Errno Nat) := do
  let result ← ask (outside.write · bytes)
  match result with
  | .ok written =>
    modify fun r => { r with outs := r.outs ++ (bytes.take written).map .accepted }
    return .ok written
  | .error e => return .error e

/-- `kill_process_group`, for `byte`. -/
def kill (keys : Keys) (byte : UInt8) (action : SignalAction) : RelayM Unit :=
  modify fun r => { r with outs := r.outs ++ [.signal keys byte action], clock := r.clock + 1 }

/-! ## The source -/

structure MasterWrite where
  accepted : Nat
  blocked : Bool
  deriving Repr, DecidableEq

/-- `write_master`, `accepted` bytes in; at most `fuel` turns of the loop. -/
def writeMaster (bytes : List UInt8) : Nat → Nat → RelayM MasterWrite
  | 0, _ => throw ()
  | fuel + 1, accepted =>
    if accepted < bytes.length then do
      if ← ask outside.paused then
        return ⟨accepted, false⟩
      else
        match ← write outside (bytes.drop accepted) with
        | .ok 0 => return ⟨accepted, true⟩
        | .ok (written + 1) => writeMaster bytes fuel (accepted + (written + 1))
        | .error .INTR => writeMaster bytes fuel accepted
        | .error .AGAIN => return ⟨accepted, false⟩
        | .error _ => return ⟨accepted, true⟩
    else return ⟨accepted, false⟩

def suspendKey : RelayM (Option (UInt8 × Pid)) := do
  match ← ask outside.slaveModes with
  | none => return none
  | some modes =>
    if !modes.isig then return none
    else if modes.vsusp = 0xff then return none
    else
      match ← ask outside.foregroundGroup with
      | none => return none
      | some foreground =>
        if foreground = outside.ownGroup then return none
        else return some (modes.vsusp, foreground)

def interruptKeys : RelayM (Option (UInt8 × UInt8)) := do
  match ← ask outside.slaveModes with
  | none => return none
  | some modes =>
    if !modes.isig then return none
    else
      let foreground ← ask outside.foregroundGroup
      if foreground.any (· ≠ outside.ownGroup) then return none
      else return some (modes.vintr, modes.vquit)

/-- The loop body of `earliest_signal`. -/
def consider (rest : List UInt8) (best : Option (Nat × SignalAction)) :
    UInt8 × Signal → Option (Nat × SignalAction)
  | (key, signal) =>
    if key = 0xff then best
    else
      match rest.findIdx? (· = key) with
      | some found => if best.all (found < ·.1) then some (found, .interrupt signal) else best
      | none => best

/-- The earliest signal character in `rest` and what it should do. -/
def earliestSignal (rest : List UInt8) (keys : Keys) : Option (Nat × SignalAction) :=
  let best := keys.suspend.bind fun (key, foreground) =>
    (rest.findIdx? (· = key)).map (·, .stop foreground)
  match keys.interrupt with
  | none => best
  | some (intr, quit) => [(intr, Signal.INT), (quit, Signal.QUIT)].foldl (consider rest) best

def keepTail (bytes : List UInt8) : RelayM Unit :=
  modifyPump fun pump => { pump with input_tail := pump.input_tail ++ bytes }

def block (outcome : MasterWrite) : RelayM Unit :=
  if outcome.blocked then modifyPump fun pump => { pump with input_blocked := true } else pure ()

def keepUnwritten (fuel : Nat) (bytes : List UInt8) : RelayM Unit :=
  if bytes.isEmpty then pure ()
  else do
    let outcome ← writeMaster outside bytes fuel 0
    block outcome
    if outcome.accepted < bytes.length then keepTail (bytes.drop outcome.accepted)

/-- Write what stands in front of the signal character at `found`: whether the loop of
`forward_chunk` goes on. -/
def writeBefore (fuel : Nat) (rest : List UInt8) (found : Nat) : RelayM Bool :=
  if 0 < found then do
    let outcome ← writeMaster outside (rest.take found) fuel 0
    block outcome
    if outcome.accepted < found || outcome.blocked then do
      keepTail (rest.drop outcome.accepted)
      return false
    else return true
  else return true

/-- The loop of `forward_chunk`. -/
def forwardRest (keys : Keys) : Nat → List UInt8 → RelayM Unit
  | 0, _ => throw ()
  | fuel + 1, rest =>
    if rest.isEmpty then pure ()
    else do
      if ← ask outside.paused then keepTail rest
      else
        match earliestSignal rest keys with
        | none => keepUnwritten outside fuel rest
        | some (found, action) =>
          if ← writeBefore outside fuel rest found then do
            kill keys (rest.getD found 0) action
            forwardRest keys fuel (rest.drop (found + 1))

def forwardChunk (fuel : Nat) (chunk : List UInt8) : RelayM Unit := do
  let suspend ← suspendKey outside
  let interrupt ← interruptKeys outside
  forwardRest outside ⟨suspend, interrupt⟩ fuel chunk

def drainTail (fuel : Nat) : RelayM Unit := do
  let r ← get
  if r.pump.input_tail.isEmpty || r.pump.input_blocked then pure ()
  else do
    modifyPump fun pump => { pump with input_tail := [] }
    forwardChunk outside fuel r.pump.input_tail

/-- Whether the real terminal is still usable. -/
def forward : Nat → RelayM Bool
  | 0 => throw ()
  | fuel + 1 => do
    let paused ← ask outside.paused
    let r ← get
    if paused || r.pump.input_blocked then return true
    else
      match ← ask outside.poll with
      | .error _ => return true
      | .ok ready =>
        if !ready.stop.isEmpty then return true
        else if ← ask outside.paused then return true
        else if ready.master.isEmpty || ready.terminal.isEmpty then return true
        else if !ready.terminal.input then return false
        else
          match ← readTerminal outside with
          | .ok [] => return false
          | .ok (byte :: bytes) => do
            forwardChunk outside fuel (byte :: bytes)
            let r ← get
            if !r.pump.input_tail.isEmpty || r.pump.input_blocked then return true
            else if !r.pump.open_ then return true
            else forward fuel
          | .error .INTR => do
            let r ← get
            if !r.pump.open_ then return true else forward fuel
          | .error .AGAIN => return true
          | .error _ => return false

def drain (terminal_alive : Bool) : Nat → Nat → RelayM Unit
  | 0, _ => throw ()
  | fuel + 1, budget =>
    if 0 < budget then do
      match ← ask outside.readMaster with
      | .ok [] | .error .Io => modifyPump fun pump => { pump with open_ := false }
      | .ok (byte :: bytes) => do
        modifyPump fun pump => { pump with buffer := pump.buffer.push (byte :: bytes) }
        let r ← get
        if terminal_alive && r.pump.error.isNone then do
          let result ← ask outside.writeTerminal
          modifyPump fun pump => { pump with error := result }
        drain terminal_alive fuel (budget - (byte :: bytes).length)
      | .error .AGAIN => pure ()
      | .error .INTR => drain terminal_alive fuel budget
      | .error e => modifyPump fun pump =>
        { pump with
          error := pump.error <|> some e
          open_ := false }
    else pure ()

/-- What `relay` does with what `poll` reports: whether the real terminal is still watched, or
nothing when the loop ends. -/
def relayEvents (fuel : Nat) (terminal_alive flush_tail watch_terminal master_open : Bool)
    (ready : Ready) : RelayM (Option Bool) := do
  let master_events := if master_open then ready.master else {}
  let term_events := if watch_terminal && master_open then ready.terminal else {}
  onlyIf (master_events.input || master_events.hangup || master_events.error)
    (drain outside terminal_alive fuel (2 ^ 64 - 1))
  if !ready.stop.isEmpty then do
    let r ← get
    onlyIf r.pump.open_ (drain outside terminal_alive fuel OUTPUT_LIMIT)
    return none
  else do
    let r ← get
    onlyIf (r.pump.open_ && flush_tail) do
      let paused ← ask outside.paused
      onlyIf (!paused && (master_events.output || master_events.error || master_events.hangup))
        (drainTail outside fuel)
    if term_events.isEmpty then return some terminal_alive
    else if term_events.input then do
      let alive ← forward outside fuel
      return some (terminal_alive && alive)
    else return some false

/-- One turn of the loop of `relay`. -/
def relayTurn (fuel : Nat) (forward_input terminal_alive : Bool) : RelayM (Option Bool) := do
  let r ← get
  let forwarding ← whenAll (forward_input && r.pump.open_) (do return !(← ask outside.paused))
  let flush_tail := forwarding && !r.pump.input_tail.isEmpty && !r.pump.input_blocked
  let watch_terminal := forwarding && r.pump.input_tail.isEmpty && terminal_alive
  match ← ask outside.poll with
  | .error .INTR => return some terminal_alive
  | .error e => do
    modifyPump fun pump => { pump with error := pump.error <|> some e }
    return none
  | .ok ready =>
    relayEvents outside fuel terminal_alive flush_tail watch_terminal r.pump.open_ ready

/-- At most `turns` turns: whether the loop has ended. -/
def relayLoop (fuel : Nat) (forward_input : Bool) : Nat → Bool → RelayM Bool
  | 0, _ => return false
  | turns + 1, terminal_alive => do
    match ← relayTurn outside fuel forward_input terminal_alive with
    | none => return true
    | some terminal_alive => relayLoop fuel forward_input turns terminal_alive

end

/-! ## Signal characters -/

/-- `byte` is one of `keys`, and `action` is what it is for. -/
def Keys.Names (keys : Keys) (byte : UInt8) : SignalAction → Prop
  | .stop foreground => keys.suspend = some (byte, foreground)
  | .interrupt .INT => byte ≠ 0xff ∧ keys.interrupt.map (·.1) = some byte
  | .interrupt .QUIT => byte ≠ 0xff ∧ keys.interrupt.map (·.2) = some byte
  | .interrupt .STOP => False

theorem getElem?_of_findIdx? {bytes : List UInt8}
    (h : bytes.findIdx? (· = key) = some found) : bytes[found]? = some key := by
  obtain ⟨hlt, hkey, _⟩ := findIdx?_eq_some_iff_getElem.mp h
  rw [getElem?_eq_getElem hlt, of_decide_eq_true hkey]

theorem consider_spec {rest : List UInt8} {good : Nat × SignalAction → Prop}
    (hbest : ∀ choice ∈ best, good choice)
    (hkey : ∀ found, key ≠ 0xff → rest[found]? = some key → good (found, .interrupt signal)) :
    ∀ choice ∈ consider rest best (key, signal), good choice := by
  intro choice hchoice
  simp only [consider] at hchoice
  split at hchoice
  · exact hbest choice hchoice
  · rename_i hused
    split at hchoice
    · rename_i found hfound
      split at hchoice
      · cases hchoice
        exact hkey found hused (getElem?_of_findIdx? hfound)
      · exact hbest choice hchoice
    · exact hbest choice hchoice

theorem earliestSignal_spec {rest : List UInt8} {keys} :
    ∀ choice ∈ earliestSignal rest keys,
      ∃ byte, rest[choice.1]? = some byte ∧ keys.Names byte choice.2 := by
  have hsuspend : ∀ choice ∈ keys.suspend.bind (fun (key, foreground) =>
      (rest.findIdx? (· = key)).map (·, SignalAction.stop foreground)),
      ∃ byte, rest[choice.1]? = some byte ∧ keys.Names byte choice.2 := by
    intro choice hchoice
    obtain ⟨⟨key, foreground⟩, hkeys, hfound⟩ := Option.bind_eq_some_iff.mp hchoice
    obtain ⟨found, hat, rfl⟩ := Option.map_eq_some_iff.mp hfound
    exact ⟨key, getElem?_of_findIdx? hat, hkeys⟩
  rw [earliestSignal]
  split
  · exact hsuspend
  · rename_i intr quit hkeys
    refine consider_spec (consider_spec hsuspend ?_) ?_
    · intro found hused hat
      exact ⟨intr, hat, hused, by rw [hkeys]; rfl⟩
    · intro found hused hat
      exact ⟨quit, hat, hused, by rw [hkeys]; rfl⟩

/-! ## What is in whose hands -/

/-- The part of the state that this is about. -/
structure Ledger where
  typed : List UInt8
  outs : List Out
  tail : List UInt8

def Relay.ledger (r : Relay) : Ledger := ⟨r.typed, r.outs, r.pump.input_tail⟩

/-- A signal is sent for its key. -/
def Out.Right : Out → Prop
  | .accepted _ => True
  | .signal keys byte action => keys.Names byte action

namespace Ledger

/-- What was typed and did not go out is `hand`. -/
structure Owes (hand : List UInt8) (ledger : Ledger) : Prop where
  right : ∀ out ∈ ledger.outs, out.Right
  order : ledger.outs.map Out.byte ++ hand = ledger.typed

/-- Between calls it is the tail. -/
def Settled (ledger : Ledger) : Prop := ledger.Owes ledger.tail

/-- While a chunk is forwarded it is in the hands of the call, and the tail is empty. -/
def Holding (hand : List UInt8) (ledger : Ledger) : Prop :=
  ledger.tail = [] ∧ ledger.Owes hand

/-- At any time. -/
def Kept (ledger : Ledger) : Prop := ∃ hand, ledger.Owes hand

variable {hand : List UInt8} {ledger : Ledger}

theorem Holding.kept (h : Holding hand ledger) : ledger.Kept := ⟨hand, h.2⟩

theorem Settled.kept (h : ledger.Settled) : ledger.Kept := ⟨ledger.tail, h⟩

theorem Holding.settled (h : Holding [] ledger) : ledger.Settled := by
  rw [Settled, h.1]
  exact h.2

theorem Holding.out {r : Relay} {outs}
    (h : r.ledger.Holding (outs.map Out.byte ++ hand)) (hright : ∀ out ∈ outs, out.Right)
    (clock : Nat) :
    Holding hand (Relay.ledger { r with
      outs := r.outs ++ outs
      clock }) := by
  refine ⟨h.1, ?_, ?_⟩
  · intro out hout
    rcases mem_append.mp hout with hout | hout
    · exact h.2.right out hout
    · exact hright out hout
  · rw [Relay.ledger, map_append, append_assoc]
    exact h.2.order

end Ledger

/-! ## Rules -/

def AnyRelay : Relay → Relay → Prop := fun _ _ => True

instance : Std.Refl AnyRelay := ⟨fun _ => trivial⟩

instance : IsTrans Relay AnyRelay := ⟨fun _ _ _ _ _ => trivial⟩

open EState

/-- From `P`, a call that returns leaves `Q`, and one that does not has kept everything. -/
abbrev Keeping {α : Type} (P : Ledger → Prop) (x : RelayM α) (Q : α → Ledger → Prop) : Prop :=
  Acts AnyRelay Relay.ledger P x Q fun _ => Ledger.Kept

namespace Keeping

variable {α β : Type} {P : Ledger → Prop}

theorem ask (answer : Nat → α) : Keeping P (ask answer) fun a v => P v ∧ ∃ now, a = answer now :=
  fun r hr => ⟨trivial, hr, r.clock, rfl⟩

theorem ask' (answer : Nat → α) : Keeping P (Capture.ask answer) fun _ => P :=
  (ask answer).post fun _ _ h => h.1

theorem bind {x : RelayM α} {f : α → RelayM β}
    (hx : Keeping P x Q) (hf : ∀ a, Keeping (Q a) (f a) G) : Keeping P (x >>= f) G :=
  Acts.bind hx hf

theorem get : Keeping P get fun r v => P v ∧ r.ledger = v :=
  fun _ hr => ⟨trivial, hr, rfl⟩

theorem modifyPump (h : ∀ pump, (f pump).input_tail = pump.input_tail) :
    Keeping P (modifyPump f) fun _ => P := by
  intro r hr
  refine ⟨trivial, ?_⟩
  rw [Relay.ledger, h]
  exact hr

end Keeping

variable (outside : Outside)

theorem write_spec (bytes more : List UInt8) :
    Keeping (Ledger.Holding (bytes ++ more)) (write outside bytes) fun result v =>
      match result with
      | .ok written => v.Holding (bytes.drop written ++ more) ∧ written ≤ bytes.length
      | .error _ => v.Holding (bytes ++ more) := by
  refine Keeping.bind (Keeping.ask _) fun result => ?_
  rintro r ⟨hholding, now, hanswer⟩
  cases result with
  | error e => exact ⟨trivial, hholding⟩
  | ok written =>
    have hbytes : ((bytes.take written).map Out.accepted).map Out.byte ++
        (bytes.drop written ++ more) = bytes ++ more := by
      have hid : Out.byte ∘ Out.accepted = id := rfl
      rw [map_map, hid, map_id, ← append_assoc, take_append_drop]
    refine ⟨trivial, ?_, outside.write_le now bytes written hanswer.symm⟩
    rw [← hbytes] at hholding
    refine hholding.out ?_ r.clock
    intro out hout
    obtain ⟨byte, _, rfl⟩ := mem_map.mp hout
    trivial

theorem readTerminal_spec :
    Keeping (Ledger.Holding []) (readTerminal outside) fun result v =>
      match result with
      | .ok bytes => v.Holding bytes
      | .error _ => v.Holding [] := by
  refine Keeping.bind (Keeping.ask' _) fun result => ?_
  rintro r ⟨htail, howes⟩
  cases result with
  | error e => exact ⟨trivial, htail, howes⟩
  | ok bytes =>
    refine ⟨trivial, htail, howes.right, ?_⟩
    have horder := howes.order
    rw [append_nil] at horder
    exact congrArg (· ++ bytes) horder

theorem kill_spec {keys : Keys} {byte action}
    (hkey : keys.Names byte action) (more : List UInt8) :
    Keeping (Ledger.Holding (byte :: more)) (kill keys byte action) fun _ =>
      Ledger.Holding more := by
  intro r hholding
  refine ⟨trivial, ?_⟩
  have hone : r.ledger.Holding ([Out.signal keys byte action].map Out.byte ++ more) := hholding
  refine hone.out ?_ (r.clock + 1)
  intro out hout
  rw [mem_singleton.mp hout]
  exact hkey

theorem keepTail_spec (bytes : List UInt8) :
    Keeping (Ledger.Holding bytes) (keepTail bytes) fun _ => Ledger.Settled := by
  rintro r ⟨htail, howes⟩
  refine ⟨trivial, ?_⟩
  have hkept : r.pump.input_tail ++ bytes = bytes := by
    rw [show r.pump.input_tail = [] from htail, nil_append]
  change Ledger.Owes (r.pump.input_tail ++ bytes) ⟨r.typed, r.outs, r.pump.input_tail ++ bytes⟩
  rw [hkept]
  exact ⟨howes.right, howes.order⟩

variable {P : Ledger → Prop}

theorem block_spec (outcome : MasterWrite) : Keeping P (block outcome) fun _ => P := by
  rw [block]
  split
  · exact Keeping.modifyPump fun _ => rfl
  · exact Acts.pureRule fun _ => id

/-! ## The functions -/

/-- What `write_master` says was accepted is what went out. -/
theorem writeMaster_spec (bytes more : List UInt8) (fuel accepted : Nat)
    (hle : accepted ≤ bytes.length) :
    Keeping (Ledger.Holding (bytes.drop accepted ++ more))
      (writeMaster outside bytes fuel accepted) fun outcome v =>
        v.Holding (bytes.drop outcome.accepted ++ more) ∧ outcome.accepted ≤ bytes.length ∧
          (outcome.blocked = true → outcome.accepted < bytes.length) := by
  induction fuel generalizing accepted with
  | zero => exact Acts.throwRule fun _ h => h.kept
  | succ fuel ih =>
    rw [writeMaster]
    split
    · rename_i hleft
      refine Keeping.bind (Keeping.ask' _) fun paused => ?_
      split
      · exact Acts.pureRule fun _ h => ⟨h, hle, fun hno => nomatch hno⟩
      refine Keeping.bind (write_spec outside (bytes.drop accepted) more) fun result => ?_
      have hblocked : Keeping (Ledger.Holding (bytes.drop accepted ++ more))
          (pure ⟨accepted, true⟩ : RelayM MasterWrite) fun outcome v =>
            v.Holding (bytes.drop outcome.accepted ++ more) ∧ outcome.accepted ≤ bytes.length ∧
              (outcome.blocked = true → outcome.accepted < bytes.length) :=
        Acts.pureRule fun _ h => ⟨h, hle, fun _ => hleft⟩
      cases result with
      | error e =>
        cases e with
        | INTR => exact ih accepted hle
        | AGAIN => exact Acts.pureRule fun _ h => ⟨h, hle, fun hno => nomatch hno⟩
        | Io => exact hblocked
        | other code => exact hblocked
      | ok written =>
        cases written with
        | zero => exact hblocked.pre fun _ h => h.1
        | succ written =>
          rintro r ⟨hholding, hwritten⟩
          rw [drop_drop] at hholding
          rw [length_drop] at hwritten
          exact ih (accepted + (written + 1)) (by omega) r hholding
    · exact Acts.pureRule fun _ h => ⟨h, hle, fun hno => nomatch hno⟩

theorem keepUnwritten_spec (fuel : Nat) (bytes : List UInt8) :
    Keeping (Ledger.Holding bytes) (keepUnwritten outside fuel bytes) fun _ =>
      Ledger.Settled := by
  rw [keepUnwritten]
  split
  · rename_i hnone
    rw [List.isEmpty_iff.mp hnone]
    exact Acts.pureRule fun _ h => h.settled
  · have hwrite := writeMaster_spec outside bytes [] fuel 0 (Nat.zero_le _)
    simp only [append_nil, drop_zero] at hwrite
    refine Keeping.bind hwrite fun outcome => ?_
    refine Keeping.bind (block_spec outcome) fun _ => ?_
    split
    · exact (keepTail_spec _).pre fun _ h => h.1
    · rename_i hall
      refine Acts.pureRule fun v h => Ledger.Holding.settled ?_
      rw [← drop_eq_nil_of_le (Nat.not_lt.mp hall)]
      exact h.1

theorem writeBefore_spec (fuel : Nat) {rest : List UInt8}
    (hlt : found < rest.length) :
    Keeping (Ledger.Holding rest) (writeBefore outside fuel rest found) fun written v =>
      if written = true then v.Holding (rest.drop found) else v.Settled := by
  rw [writeBefore]
  split
  · have hlength : (rest.take found).length = found := length_take_of_le hlt.le
    have hwrite := writeMaster_spec outside (rest.take found) (rest.drop found) fuel 0
      (Nat.zero_le _)
    rw [drop_zero, take_append_drop, hlength] at hwrite
    refine Keeping.bind hwrite fun outcome => ?_
    refine Keeping.bind (block_spec outcome) fun _ => ?_
    split
    · refine Keeping.bind (Q := fun _ => Ledger.Settled) ?_ fun _ =>
        Acts.pureRule fun v h => by rwa [if_neg (by decide)]
      refine (keepTail_spec _).pre fun v h => ?_
      have hdrop : (rest.take found).drop outcome.accepted ++ rest.drop found =
          rest.drop outcome.accepted := by
        rw [← drop_append_of_le_length (by omega), take_append_drop]
      rw [← hdrop]
      exact h.1
    · rename_i hall
      simp only [Bool.or_eq_true, decide_eq_true_eq, not_or, Nat.not_lt] at hall
      refine Acts.pureRule fun v h => ?_
      rw [if_pos rfl]
      have hnone : (rest.take found).drop outcome.accepted = [] :=
        drop_eq_nil_of_le (by omega)
      rw [hnone, nil_append] at h
      exact h.1
  · rename_i hfirst
    refine Acts.pureRule fun v h => ?_
    rw [if_pos rfl, Nat.eq_zero_of_not_pos hfirst]
    exact h

theorem forwardRest_spec (keys : Keys) (fuel : Nat) (rest : List UInt8) :
    Keeping (Ledger.Holding rest) (forwardRest outside keys fuel rest) fun _ =>
      Ledger.Settled := by
  induction fuel generalizing rest with
  | zero => exact Acts.throwRule fun _ h => h.kept
  | succ fuel ih =>
    rw [forwardRest]
    split
    · rename_i hnone
      rw [List.isEmpty_iff.mp hnone]
      exact Acts.pureRule fun _ h => h.settled
    refine Keeping.bind (Keeping.ask' _) fun paused => ?_
    split
    · exact keepTail_spec rest
    split
    · exact keepUnwritten_spec outside fuel rest
    · rename_i found action hsignal
      obtain ⟨byte, hat, hnames⟩ := earliestSignal_spec (found, action) hsignal
      obtain ⟨hlt, hbyte⟩ := List.getElem?_eq_some_iff.mp hat
      have hget : rest.getD found 0 = byte := by
        rw [getD_eq_getElem?_getD, hat]
        rfl
      rw [hget]
      refine Keeping.bind (writeBefore_spec outside fuel hlt) fun written => ?_
      split
      · rw [drop_eq_getElem_cons hlt, hbyte]
        exact Keeping.bind (kill_spec hnames _) fun _ => ih _
      · exact Acts.pureRule fun _ h => h

/-- Looking up keys keeps everything as it is. -/
theorem suspendKey_spec : Keeping P (suspendKey outside) fun _ => P := by
  have hpure : ∀ key, Keeping P (pure key : RelayM (Option (UInt8 × Pid))) fun _ => P :=
    fun _ => Acts.pureRule fun _ h => h
  refine Keeping.bind (Keeping.ask' _) fun modes => ?_
  cases modes with
  | none => exact hpure _
  | some modes =>
    dsimp only
    split
    · exact hpure _
    split
    · exact hpure _
    refine Keeping.bind (Keeping.ask' _) fun foreground => ?_
    cases foreground with
    | none => exact hpure _
    | some foreground =>
      dsimp only
      split <;> exact hpure _

theorem interruptKeys_spec : Keeping P (interruptKeys outside) fun _ => P := by
  have hpure : ∀ keys, Keeping P (pure keys : RelayM (Option (UInt8 × UInt8))) fun _ => P :=
    fun _ => Acts.pureRule fun _ h => h
  refine Keeping.bind (Keeping.ask' _) fun modes => ?_
  cases modes with
  | none => exact hpure _
  | some modes =>
    dsimp only
    split
    · exact hpure _
    refine Keeping.bind (Keeping.ask' _) fun foreground => ?_
    split <;> exact hpure _

theorem forwardChunk_spec (fuel : Nat) (chunk : List UInt8) :
    Keeping (Ledger.Holding chunk) (forwardChunk outside fuel chunk) fun _ =>
      Ledger.Settled := by
  refine Keeping.bind (suspendKey_spec outside) fun suspend => ?_
  refine Keeping.bind (interruptKeys_spec outside) fun interrupt => ?_
  exact forwardRest_spec outside _ fuel chunk

/-- Offering the tail again takes it in hand first. -/
theorem drainTail_spec (fuel : Nat) :
    Keeping Ledger.Settled (drainTail outside fuel) fun _ => Ledger.Settled := by
  refine Keeping.bind Keeping.get fun r => ?_
  split
  · exact Acts.pureRule fun _ h => h.1
  refine Keeping.bind (Q := fun _ => Ledger.Holding r.pump.input_tail) ?_ fun _ =>
    forwardChunk_spec outside fuel r.pump.input_tail
  rintro now ⟨hsettled, hnow⟩
  refine ⟨trivial, rfl, hsettled.right, ?_⟩
  have htail : r.pump.input_tail = now.pump.input_tail := congrArg Ledger.tail hnow
  rw [htail]
  exact hsettled.order

/-- The terminal is read only when nothing is left to write. -/
theorem forward_spec (fuel : Nat) :
    Keeping (Ledger.Holding []) (forward outside fuel) fun _ => Ledger.Settled := by
  have hpure : ∀ alive, Keeping (Ledger.Holding []) (pure alive : RelayM Bool) fun _ =>
      Ledger.Settled := fun _ => Acts.pureRule fun _ h => h.settled
  induction fuel with
  | zero => exact Acts.throwRule fun _ h => h.kept
  | succ fuel ih =>
    rw [forward]
    refine Keeping.bind (Keeping.ask' _) fun paused => ?_
    refine Keeping.bind Keeping.get fun r => ?_
    refine Acts.pre (P := Ledger.Holding []) ?_ fun _ h => h.1
    split
    · exact hpure true
    refine Keeping.bind (Keeping.ask' _) fun polled => ?_
    cases polled with
    | error e => exact hpure true
    | ok ready =>
      dsimp only
      split
      · exact hpure true
      refine Keeping.bind (Keeping.ask' _) fun paused => ?_
      split
      · exact hpure true
      split
      · exact hpure true
      split
      · exact hpure false
      refine Keeping.bind (readTerminal_spec outside) fun result => ?_
      cases result with
      | error e =>
        cases e with
        | INTR =>
          refine Keeping.bind Keeping.get fun r => ?_
          refine Acts.pre (P := Ledger.Holding []) ?_ fun _ h => h.1
          split
          · exact hpure true
          · exact ih
        | AGAIN => exact hpure true
        | Io => exact hpure false
        | other code => exact hpure false
      | ok bytes =>
        cases bytes with
        | nil => exact hpure false
        | cons byte bytes =>
          refine Keeping.bind (forwardChunk_spec outside fuel _) fun _ => ?_
          refine Keeping.bind Keeping.get fun r => ?_
          split
          · exact Acts.pureRule fun _ h => h.1
          · rename_i hgoon
            refine Acts.pre (P := Ledger.Holding []) ?_ fun v h => ?_
            · split
              · exact hpure true
              · exact ih
            · simp only [Bool.or_eq_true, Bool.not_eq_true', not_or, Bool.not_eq_false,
                List.isEmpty_iff] at hgoon
              have htail : v.tail = [] := (congrArg Ledger.tail h.2).symm.trans hgoon.1
              refine ⟨htail, ?_⟩
              have hsettled := h.1
              rwa [Ledger.Settled, htail] at hsettled

/-- What the command writes has nothing to do with what is typed. -/
theorem drain_spec (hkept : ∀ v, P v → v.Kept) (alive : Bool)
    (fuel budget : Nat) : Keeping P (drain outside alive fuel budget) fun _ => P := by
  induction fuel generalizing budget with
  | zero => exact Acts.throwRule fun v h => hkept v h
  | succ fuel ih =>
    rw [drain]
    split
    · refine Keeping.bind (Keeping.ask' _) fun result => ?_
      cases result with
      | error e =>
        cases e with
        | INTR => exact ih budget
        | AGAIN => exact Acts.pureRule fun _ h => h
        | Io | other code => exact Keeping.modifyPump fun _ => rfl
      | ok bytes =>
        cases bytes with
        | nil => exact Keeping.modifyPump fun _ => rfl
        | cons byte bytes =>
          refine Keeping.bind (Keeping.modifyPump fun _ => rfl) fun _ => ?_
          refine Keeping.bind Keeping.get fun r => ?_
          refine Acts.pre (P := P) ?_ fun _ h => h.1
          split
          · refine Keeping.bind (Keeping.ask' _) fun failed => ?_
            exact Keeping.bind (Keeping.modifyPump fun _ => rfl) fun _ => ih _
          · exact ih _
    · exact Acts.pureRule fun _ h => h

theorem Keeping.onlyIf
    (h : condition = true → Keeping P x fun _ => P) :
    Keeping P (onlyIf condition x) fun _ => P := by
  rw [Capture.onlyIf]
  split
  · exact h ‹_›
  · exact Acts.pureRule fun _ h => h

theorem relayEvents_spec (fuel : Nat) (alive master_open : Bool) {flush_tail watch_terminal : Bool}
    (hone : flush_tail = true → watch_terminal = false) (ready : Ready) :
    Keeping (fun v => v.Settled ∧ (watch_terminal = true → v.tail = []))
      (relayEvents outside fuel alive flush_tail watch_terminal master_open ready) fun _ =>
      Ledger.Settled := by
  have hdrain : ∀ condition budget,
      Keeping (fun v => v.Settled ∧ (watch_terminal = true → v.tail = []))
        (onlyIf condition (drain outside alive fuel budget))
        fun _ v => v.Settled ∧ (watch_terminal = true → v.tail = []) :=
    fun condition budget => Keeping.onlyIf fun _ =>
      drain_spec outside (fun _ h => Ledger.Settled.kept h.1) alive fuel budget
  refine Keeping.bind (hdrain _ _) fun _ => ?_
  generalize hterm : (if (watch_terminal && master_open) = true then ready.terminal
    else ({} : Events)) = term_events
  split
  · refine Keeping.bind Keeping.get fun r => ?_
    refine Keeping.bind ((hdrain _ _).pre fun _ h => h.1) fun _ => ?_
    exact Acts.pureRule fun _ h => h.1
  refine Keeping.bind Keeping.get fun r => ?_
  refine Keeping.bind (Q := fun _ v => v.Settled ∧ (watch_terminal = true → v.tail = [])) ?_
    fun _ => ?_
  · refine Acts.pre ?_ fun _ h => h.1
    refine Keeping.onlyIf fun hflush => ?_
    refine Keeping.bind (Keeping.ask' _) fun paused => ?_
    refine Keeping.onlyIf fun _ => ?_
    have hunwatched := hone (Bool.and_eq_true_iff.mp hflush).2
    refine (drainTail_spec outside fuel).weaken (fun _ h => h.1) (fun _ v h => ⟨h, ?_⟩)
      fun _ _ h => h
    intro hwatched
    exact absurd (hunwatched.symm.trans hwatched) (by decide)
  · split
    · exact Acts.pureRule fun _ h => h.1
    split
    · rename_i hinput
      have hwatched : watch_terminal = true := by
        by_contra hno
        rw [if_neg (by simp [hno])] at hterm
        rw [← hterm] at hinput
        exact absurd hinput (by decide)
      refine Keeping.bind (Q := fun _ => Ledger.Settled)
        ((forward_spec outside fuel).pre fun v h => ?_) fun alive => Acts.pureRule fun _ h => h
      refine ⟨h.2 hwatched, ?_⟩
      rw [← h.2 hwatched]
      exact h.1
    · exact Acts.pureRule fun _ h => h.1

/-- **One turn** leaves everything typed written, turned into signals, or in the tail. -/
theorem relayTurn_spec (fuel : Nat) (forward_input alive : Bool) :
    Keeping Ledger.Settled (relayTurn outside fuel forward_input alive) fun _ =>
      Ledger.Settled := by
  refine Keeping.bind Keeping.get fun r => ?_
  refine Keeping.bind (Q := fun _ v => v.Settled ∧ r.ledger = v) ?_ fun forwarding => ?_
  · rw [whenAll]
    split
    · exact Keeping.bind (Keeping.ask' _) fun paused => Acts.pureRule fun _ h => h
    · exact Acts.pureRule fun _ h => h
  refine Keeping.bind (Keeping.ask' _) fun polled => ?_
  cases polled with
  | error e =>
    have hfails : Keeping (fun v => v.Settled ∧ r.ledger = v)
        (do modifyPump fun pump => { pump with error := pump.error <|> some e }
            return none : RelayM (Option Bool)) fun _ => Ledger.Settled :=
      Keeping.bind (Keeping.modifyPump fun _ => rfl) fun _ => Acts.pureRule fun _ h => h.1
    cases e with
    | INTR => exact Acts.pureRule fun _ h => h.1
    | AGAIN => exact hfails
    | Io => exact hfails
    | other code => exact hfails
  | ok ready =>
    refine Acts.pre (relayEvents_spec outside fuel alive r.pump.open_ ?_ ready) fun v h => ?_
    · intro hflush
      simp only [Bool.and_eq_true, Bool.not_eq_true'] at hflush
      rw [hflush.1.2, Bool.and_false, Bool.false_and]
    · refine ⟨h.1, fun hwatched => ?_⟩
      simp only [Bool.and_eq_true, List.isEmpty_iff] at hwatched
      rw [← h.2]
      exact hwatched.1.2

theorem relayLoop_spec (fuel : Nat) (forward_input alive : Bool) (turns : Nat) :
    Keeping Ledger.Settled (relayLoop outside fuel forward_input turns alive) fun _ =>
      Ledger.Settled := by
  induction turns generalizing alive with
  | zero => exact Acts.pureRule fun _ h => h
  | succ turns ih =>
    refine Keeping.bind (relayTurn_spec outside fuel forward_input alive) fun result => ?_
    cases result with
    | none => exact Acts.pureRule fun _ h => h
    | some alive => exact ih alive

/-! ## What was typed -/

/-- The bytes the master took. -/
def accepted : List Out → List UInt8
  | [] => []
  | .accepted byte :: outs => byte :: accepted outs
  | .signal .. :: outs => accepted outs

/-- What was typed without what became a signal: the first byte typed is the first to go out. -/
def unsignalled : List Out → List UInt8 → List UInt8
  | .accepted _ :: outs, byte :: typed => byte :: unsignalled outs typed
  | .signal .. :: outs, _ :: typed => unsignalled outs typed
  | _, typed => typed

theorem accepted_append
    (h : outs.map Out.byte ++ hand = typed) : accepted outs ++ hand = unsignalled outs typed := by
  subst h
  induction outs with
  | nil => cases hand <;> rfl
  | cons out outs ih =>
    cases out with
    | accepted byte => exact congrArg (byte :: ·) ih
    | signal keys byte action => exact ih

/-- The signals sent: each for its key, which was typed there, when everything typed before
it was taken or sent as a signal itself. -/
def SignalsInOrder (r : Relay) : Prop :=
  ∀ (i : Nat) (keys : Keys) (byte : UInt8) (action : SignalAction),
    r.outs[i]? = some (.signal keys byte action) →
      r.typed[i]? = some byte ∧ keys.Names byte action ∧
        accepted (r.outs.take i) = unsignalled (r.outs.take i) (r.typed.take i)

theorem Ledger.Owes.signals (h : r.ledger.Owes hand) :
    SignalsInOrder r := by
  intro i keys byte action hat
  obtain ⟨hlt, hout⟩ := List.getElem?_eq_some_iff.mp hat
  have horder : r.outs.map Out.byte ++ hand = r.typed := h.order
  have hright := h.right _ (getElem_mem hlt)
  rw [hout] at hright
  refine ⟨?_, hright, ?_⟩
  · rw [← horder, getElem?_append_left (by simpa using hlt), getElem?_map, hat]
    rfl
  · have htake : (r.outs.take i).map Out.byte ++ [] = r.typed.take i := by
      rw [← horder, append_nil, take_append_of_le_length (by simp; omega), map_take]
    rw [← accepted_append htake, append_nil]

end Ish.Capture

import DmCdp.Lib.Finally
import DmCdp.Manager.Overlay
import DmCdp.Manager.RebuildApi

/-!
# `main` of `rkcdp-rebuild`

The whole of `main` as a program with exceptions: every file it reads or writes, `cp`, the script
on the host, the pings, and the progress file before each step.  Any of these may raise.

* `RebuildEnv`       what each call returns or raises;
* `rebuildMain`      `main`, from `Progress` to the `finally`;
* `Begun`            what holds in the body wherever it raises;
* `Rebuilt`          the exit code and the progress file, the lock, the virtual machine, the copy;
* `rebuild_ends`     `Rebuilt` at every end of every call;
* `seed_never`       with `--from seed` no end is a success, and no virtual machine is made.
-/

set_option linter.unusedVariables false

namespace CDP
open Exc Img

/-! ## what the program meets -/

structure RebuildArgs where
  node : String
  host : String
  vmid : Option Nat
  storage : String
  bridge : String
  -- `a.host_journal or a.journal`
  hostJournal : String
  -- `--progress` is given
  progress : Bool
  force : Bool
  keepCopy : Bool
  -- `--from seed`
  fromSeed : Bool

/-- `status.json`; times in milliseconds -/
structure StatusJson where
  state : Option String
  time : Int
  lastSeq : Option Nat

def StatusJson.empty : StatusJson := ⟨none, 0, none⟩

/-- `node.json`; `mac` is the first of `macs` -/
structure NodeJson where
  memMb : Option Nat
  cpus : Option Nat
  mac : Option String
  firmware : Option String
  ips : List String

def NodeJson.empty : NodeJson := ⟨none, none, none, none, []⟩

/-- what the calls return or raise, an exception as `str(e)`; a file that is missing is `none` -/
structure RebuildEnv where
  -- the `n`-th flush of the progress file
  flush : Nat → Option String
  -- whether `base_end_seq` is in it
  manifest : Except String Bool
  status : Except String (Option StatusJson)
  nodeJson : Except String (Option NodeJson)
  replica : Bool
  seed : Bool
  statusAgain : Except String (Option StatusJson)
  now : Int
  -- an exception, and whether the lock file is there then
  lockWrite : Option (String × Bool)
  polls : Nat → Except String (Option StatusJson × Int)
  makedirs : Option String
  -- the two `time.strftime`
  ts : String
  hms : String
  -- `cp`: its size and what has been copied at each poll, as far as `os.stat` finds it
  total : Option Nat
  popen : Option String
  copyPolls : List (Option Nat)
  cpRc : Int
  copied : Nat → UInt8
  -- `overlay_seed`; an exception of a call in it, and what the copy is then
  seedFile : Sparse UInt8
  reads : ShortReads
  overlay : Option (String × (Nat → UInt8))
  unlock : Option String
  -- the lines that the script on the host prints
  script : Except String (List String)
  ping : Nat → Except String Bool
  removeCopy : Option String
  unlockLast : Option String

/-- the file at `copy_path` -/
inductive CopyFile where
  | unfinished
  | whole (img : Nat → UInt8)

/-- `Progress.d`, but for the times and rates -/
structure ProgDoc where
  step : Nat
  state : ProgState
  msg : String
  steps : List (Nat × String)
  error : Option String
  copy : Option (Nat × Option Nat)
  vmid : Option String

def ProgDoc.init : ProgDoc := ⟨0, .running, "", [], none, none, none⟩

structure MainSt where
  pg : ProgDoc
  -- the progress file
  file : Option ProgDoc
  flushes : Nat
  lockFile : Bool
  -- the local `lock` is not `None`
  lock : Bool
  copy : Option CopyFile
  -- `cp` runs
  cpAlive : Bool
  -- the scripts that have been run on the host
  scripts : List String

/-- before `main`; there may be a lock file of another rebuild -/
def MainSt.init (file : Option ProgDoc) (lockFile : Bool) : MainSt :=
  ⟨.init, file, 0, lockFile, true, none, false, []⟩

abbrev MainProg := Prog MainSt String

/-! ## `Progress` -/

section
variable (a : RebuildArgs) (e : RebuildEnv)

/-- a call that returns a value -/
def tryLoad {α : Type} (x : Except String α) : MainProg α :=
  match x with
  | .ok v => pure v
  | .error t => throw t

/-- a call with an effect -/
def tryCall (x : Option String) (done : MainSt → MainSt) : MainProg Unit :=
  match x with
  | none => modify done
  | some t => throw t

/-- `Progress.flush`: the new file replaces the old one, or the old one stays -/
def progFlush : MainProg Unit :=
  if a.progress then do
    let s ← get
    modify fun s => { s with flushes := s.flushes + 1 }
    tryCall (e.flush s.flushes) fun s => { s with file := some s.pg }
  else pure ()

def MainSt.update (s : MainSt) (u : ProgDoc → ProgDoc) : MainSt := { s with pg := u s.pg }

def progStep (n : Nat) (msg : String) : MainProg Unit := do
  modify fun s => s.update fun d => { d with step := n, msg := msg, steps := d.steps ++ [(n, msg)] }
  progFlush a e

def progCopy (done : Nat) (total : Option Nat) : MainProg Unit := do
  modify fun s => s.update fun d => { d with copy := some (done, total) }
  progFlush a e

def progDone (msg : String) : MainProg Unit := do
  modify fun s => s.update fun d => { d with state := .done, msg := msg }
  progFlush a e

def progFail (err : String) : MainProg Unit := do
  modify fun s => s.update fun d => { d with state := .failed, error := some err }
  progFlush a e

/-! ## the steps -/

/-- `"%.0f" % (ms / 1000)` -/
def secText (ms : Int) : String :=
  let q := ms / 1000
  let r := ms % 1000
  let n := if r < 500 ∨ r = 500 ∧ q % 2 = 0 then q else q + 1
  if n = 0 ∧ ms < 0 then "-0" else toString n

/-- step 1 -/
def checkPhase : MainProg (StatusJson × NodeJson) := do
  progStep a e 1 ("checking replica for " ++ a.node)
  let based ← tryLoad e.manifest
  let status ← tryLoad e.status
  let node ← tryLoad e.nodeJson
  if e.replica = false then throw ("no replica.raw for " ++ a.node)
  else if a.fromSeed = true ∧ e.seed = false then
    throw ("no seed.raw for " ++ a.node ++ " (node was never seeded)")
  else if based = false then throw ("base copy never completed for " ++ a.node)
  else do
    let again ← tryLoad e.statusAgain
    match again with
    | none => pure (status.getD .empty, node.getD .empty)
    | some st =>
      if e.now - st.time < 60000 ∧ a.force = false then
        throw (a.node ++ " reported alive " ++ secText (e.now - st.time) ++
          "s ago; use --force to rebuild anyway")
      else pure (status.getD .empty, node.getD .empty)

/-- `for _ in range(30)`, with the polls that are left -/
def waitPaused : Nat → MainProg Unit
  | 0 => pure ()
  | n + 1 => do
    let p ← tryLoad (e.polls (29 - n))
    if (p.1.getD .empty).state = some "PAUSED" ∨ p.2 - (p.1.getD .empty).time > 30000 then pure ()
    else waitPaused n

/-- `with open(lock, "w") as f` -/
def writeLock : MainProg Unit :=
  match e.lockWrite with
  | none => modify fun s => { s with lockFile := true }
  | some (t, there) => do
    modify fun s => { s with lockFile := s.lockFile || there }
    throw t

/-- step 2 -/
def quiescePhase : MainProg Unit := do
  progStep a e 2 "quiescing replica writes"
  writeLock e
  waitPaused e 30

/-- `while proc.poll() is None`; `last_done` is the result -/
def copyPoll : List (Option Nat) → Nat → MainProg Nat
  | [], last => pure last
  | none :: more, last => copyPoll more last
  | some done :: more, last => do
    progCopy a e done e.total
    copyPoll more done

/-- `total or last_done` -/
def orLast (total : Option Nat) (last : Nat) : Nat :=
  match total with
  | none => last
  | some n => if n = 0 then last else n

def copyWithProgress : MainProg Unit := do
  tryCall e.popen fun s => { s with cpAlive := true, copy := some .unfinished }
  let last ← copyPoll a e e.copyPolls 0
  modify fun s => { s with
    cpAlive := false
    copy := some (if e.cpRc = 0 then .whole e.copied else .unfinished) }
  if e.cpRc ≠ 0 then throw ("cp failed rc=" ++ toString e.cpRc)
  else progCopy a e (orLast e.total last) e.total

/-- `overlay_seed` -/
def overlayPhase : MainProg Unit :=
  match e.overlay with
  | some (t, img) => do
    modify fun s => { s with copy := some (.whole img) }
    throw t
  | none => ExceptT.mk fun s => (overlaySeedCall e.seedFile e.reads e.copied).map fun p =>
    (p.1.mapError PyError.text, { s with copy := some (.whole p.2.copy) })

/-- `if a.source == "seed"` -/
def seedPhase : MainProg Unit := if a.fromSeed then overlayPhase e else pure ()

def copyMsg (status : StatusJson) : String :=
  if a.fromSeed then "copying replica, then laying the seed-time chunks back over it"
  else "copying replica (as of seq " ++ (status.lastSeq.map toString).getD "None" ++ ", " ++
    e.hms ++ ")"

/-- step 3, up to `lock = None` -/
def copyPhase (status : StatusJson) : MainProg Unit := do
  tryCall e.makedirs id
  progStep a e 3 (copyMsg a e status)
  copyWithProgress a e
  seedPhase a e
  tryCall e.unlock fun s => { s with lockFile := false }
  modify fun s => { s with lock := false }

/-- `int(x or d)` -/
def orDefault (x : Option Nat) (d : Nat) : Nat :=
  match x with
  | none => d
  | some n => if n = 0 then d else n

def NodeJson.efi (node : NodeJson) : Bool := node.firmware.getD "efi" == "efi"

/-- the script that makes the virtual machine -/
def createScript (node : NodeJson) : String :=
  let hostCopy := a.hostJournal ++ "/rebuild/" ++ a.node ++ "-" ++ e.ts ++ ".raw"
  let vmid := match a.vmid with
    | some n => if n = 0 then none else some (toString n)
    | none => none
  let mac := node.mac.getD ""
  let net := if mac = "" then "virtio,bridge=" ++ a.bridge
    else "virtio=" ++ mac ++ ",bridge=" ++ a.bridge
  let bios := if node.efi then
    "--bios ovmf --efidisk0 " ++ a.storage ++ ":1,efitype=4m,pre-enrolled-keys=0" else ""
  "set -e\n" ++
  "test -f " ++ hostCopy ++ " || \x7b echo \"host cannot see " ++ hostCopy ++
    " (NFS not mounted?)\" >&2; exit 2; \x7d\n" ++
  "V=" ++ vmid.getD ("$(for n in $(seq 9100 9199); do qm status $n >/dev/null 2>&1 || " ++
    "\x7b echo $n; break; \x7d; done)") ++ "\n" ++
  "test -n \"$V\" || \x7b echo \"no free vmid\" >&2; exit 3; \x7d\n" ++
  "qm create $V --name " ++ a.node ++ " --memory " ++ toString (orDefault node.memMb 4096) ++
    " --cores " ++ toString (orDefault node.cpus 2) ++ " --cpu host --ostype l26 \\\n" ++
  "  --scsihw virtio-scsi-single --net0 " ++ net ++ " --agent enabled=1 " ++ bios ++ "\n" ++
  "qm importdisk $V " ++ hostCopy ++ " " ++ a.storage ++ " >/dev/null\n" ++
  "DISK=$(qm config $V | grep -oE \x27^unused0: .+\x27 | cut -d\x27 \x27 -f2)\n" ++
  "qm set $V --scsi0 $DISK,discard=on,iothread=1 --boot order=scsi0 >/dev/null\n" ++
  "qm start $V\n" ++
  "echo VMID=$V\n"

/-- `next((ln[5:] for ln in … if ln.startswith("VMID=")), "?")` -/
def vmidOf (lines : List String) : String :=
  match lines.find? fun l => "VMID=".toList.isPrefixOf l.toList with
  | some l => String.ofList (l.toList.drop 5)
  | none => "?"

def createMsg (node : NodeJson) : String :=
  "creating VM on " ++ a.host ++ " (" ++ toString (orDefault node.memMb 4096) ++ " MB, " ++
    toString (orDefault node.cpus 2) ++ " cores, " ++ (if node.efi then "UEFI" else "BIOS") ++ ")"

/-- steps 4 and 5 -/
def createPhase (node : NodeJson) : MainProg String := do
  progStep a e 4 "copy ready; boot fence will place the node as replica"
  progStep a e 5 (createMsg a node)
  -- the script has been run, also where it fails
  modify fun s => { s with scripts := s.scripts ++ [createScript a e node] }
  let out ← tryLoad e.script
  modify fun s => s.update fun d => { d with vmid := some (vmidOf out) }
  pure (vmidOf out)

/-- `for _ in range(150)`, with the pings that are left -/
def waitUp : Nat → MainProg Bool
  | 0 => pure false
  | n + 1 => do
    let up ← tryLoad (e.ping (149 - n))
    if up then pure true else waitUp n

/-- `if ips` -/
def reachPhase (node : NodeJson) (vmid : String) : MainProg Unit :=
  match node.ips with
  | [] => pure ()
  | ip :: _ => do
    let up ← waitUp e 150
    if up = false then
      throw ("VM " ++ vmid ++ " started but " ++ ip ++ " not reachable after 5 min")
    else pure ()

/-- `if not a.keep_copy` -/
def removeCopy : MainProg Unit :=
  if a.keepCopy then pure () else tryCall e.removeCopy fun s => { s with copy := none }

/-- step 6, and the end -/
def bootPhase (node : NodeJson) (vmid : String) : MainProg Nat := do
  progStep a e 6 ("VM " ++ vmid ++ " started; waiting for " ++ node.ips.head?.getD "boot")
  reachPhase e node vmid
  removeCopy a e
  progDone a e (a.node ++ " rebuilt as VM " ++ vmid ++ " on " ++ a.host ++
    ", booting as STANDBY (heal-standby runs on first boot)")
  pure 0

/-- the body of `try` -/
def mainBody : MainProg Nat := do
  let p ← checkPhase a e
  quiescePhase a e
  copyPhase a e p.1
  let vmid ← createPhase a e p.2
  bootPhase a e p.2 vmid

/-- `except Exception` -/
def mainFailed (err : String) : MainProg Nat := do
  progFail a e err
  pure 1

/-- `finally` -/
def mainFinally : MainProg Unit := do
  let s ← get
  if s.lock && s.lockFile then tryCall e.unlockLast fun s => { s with lockFile := false }
  else pure ()

/-- `main`, behind the arguments; `Progress.__init__` flushes -/
def rebuildMain : MainProg Nat := do
  progFlush a e
  try mainBody a e
  catch err => mainFailed a e err
  finally mainFinally e

end

/-! ## what holds in the body -/

/-- the checks of step 1 have passed -/
structure Checked (a : RebuildArgs) (e : RebuildEnv) : Prop where
  based : e.manifest = .ok true
  replica : e.replica = true
  away : ∀ st, e.statusAgain = .ok (some st) → 60000 ≤ e.now - st.time ∨ a.force = true

/-- a virtual machine may be made -/
structure VmReady (a : RebuildArgs) (e : RebuildEnv) : Prop extends Checked a e where
  cp : e.cpRc = 0
  source : a.fromSeed = false

/-- wherever the body raises, and behind the handler -/
structure Left (a : RebuildArgs) (e : RebuildEnv) (s : MainSt) : Prop where
  small : s.pg.step ≤ 6
  steps : s.pg.steps.map Prod.fst = List.range' 1 s.pg.step
  lock : s.lockFile = true → s.lock = true
  cp : s.cpAlive = true → s.pg.step = 3
  vm : s.scripts ≠ [] → VmReady a e ∧ 5 ≤ s.pg.step ∧ s.scripts.length = 1
  copy : s.scripts ≠ [] → s.copy = some (.whole e.copied) ∨
    s.copy = none ∧ s.pg.step = 6 ∧ a.keepCopy = false

structure Begun (a : RebuildArgs) (e : RebuildEnv) (s : MainSt) : Prop extends Left a e s where
  error : s.pg.error = none

/-- the progress file is what `Progress` holds -/
def Synced (a : RebuildArgs) (s : MainSt) : Prop := a.progress = true → s.file = some s.pg

/-- a flush has raised -/
def Unwritten (a : RebuildArgs) (e : RebuildEnv) (x : String) : Prop :=
  a.progress = true ∧ ∃ n, e.flush n = some x

/-- from `P`, the part returns in `Q` or raises -/
def Spec (a : RebuildArgs) (e : RebuildEnv) {α : Type} (P : MainSt → Prop) (m : MainProg α)
    (Q : α → MainSt → Prop) : Prop :=
  Ends (fun s => Begun a e s ∧ P s) m fun r s => Begun a e s ∧ ∀ v, r = .ok v → Q v s

/-- the progress file does not matter -/
def Stable (P : MainSt → Prop) : Prop :=
  ∀ s f n, P s → P { s with file := f, flushes := n }

section
variable {a : RebuildArgs} {e : RebuildEnv} {α β : Type} {P P' : MainSt → Prop}

theorem spec_bind {m : MainProg α} {f : α → MainProg β} {Q : α → MainSt → Prop}
    {R : β → MainSt → Prop} (hm : Spec a e P m Q) (hf : ∀ v, Spec a e (Q v) (f v) R) :
    Spec a e P (m >>= f) R := by
  refine ends_bind hm (fun v => ?_) fun x s hs => ⟨hs.1, fun v hv => by cases hv⟩
  exact (hf v).weaken (fun s hs => ⟨hs.1, hs.2 v rfl⟩) fun r s hs => hs

theorem spec_pure {v : α} {Q : α → MainSt → Prop} (h : ∀ s, P s → Q v s) :
    Spec a e P (pure v) Q := by
  apply ends_pure
  intro s hs
  refine ⟨hs.1, fun w hw => ?_⟩
  obtain rfl := Except.ok.inj hw
  exact h s hs.2

theorem spec_throw {t : String} {Q : α → MainSt → Prop} : Spec a e P (throw t) Q := by
  apply ends_throw
  intro s hs
  exact ⟨hs.1, fun v hv => by cases hv⟩

theorem spec_ite {c : Prop} [Decidable c] {m m' : MainProg α} {Q : α → MainSt → Prop}
    (h : c → Spec a e P m Q) (h' : ¬c → Spec a e P m' Q) : Spec a e P (if c then m else m') Q :=
  ends_ite h h'

theorem spec_modify {g : MainSt → MainSt} {Q : Unit → MainSt → Prop}
    (h : ∀ s, Begun a e s → P s → Begun a e (g s) ∧ Q () (g s)) : Spec a e P (modify g) Q := by
  apply ends_modify
  intro s hs
  obtain ⟨h1, h2⟩ := h s hs.1 hs.2
  exact ⟨h1, fun v _ => h2⟩

theorem spec_load (x : Except String α) :
    Spec a e P (tryLoad x) fun v s => P s ∧ x = .ok v := by
  cases x with
  | ok v => exact spec_pure fun s hs => ⟨hs, rfl⟩
  | error t => exact spec_throw

theorem spec_call {x : Option String} {g : MainSt → MainSt} {Q : Unit → MainSt → Prop}
    (h : ∀ s, Begun a e s → P s → Begun a e (g s) ∧ Q () (g s)) : Spec a e P (tryCall x g) Q := by
  cases x with
  | none => exact spec_modify h
  | some t => exact spec_throw

theorem Begun.stable : Stable (Begun a e) := by
  intro s f n h
  exact ⟨⟨h.small, h.steps, h.lock, h.cp, h.vm, h.copy⟩, h.error⟩

theorem ends_flush (hst : Stable P) : Ends P (progFlush a e) fun r s =>
    P s ∧ (r = .ok () → Synced a s) ∧ ∀ x, r = .error x → Unwritten a e x := by
  have hok : ∀ {p : Prop} {x : String}, (Except.ok () : Except String Unit) = .error x → p := by
    intro p x h
    cases h
  apply ends_ite
  · intro hp
    apply ends_bind (Q := fun r s => P s ∧ r = .ok s)
    · exact ends_get fun s hs => ⟨hs, rfl⟩
    · intro s0
      apply ends_bind (Q := fun r s => P s ∧ r = .ok ())
      · exact ends_modify fun s hs => ⟨hst _ _ _ hs.1, rfl⟩
      · intro _
        unfold tryCall
        cases hf : e.flush s0.flushes with
        | none => exact ends_modify fun s hs => ⟨hst _ _ _ hs.1, fun _ _ => rfl, fun x => hok⟩
        | some t =>
          apply ends_throw
          intro s hs
          refine ⟨hs.1, fun h => (by cases h), fun x hx => ⟨hp, s0.flushes, ?_⟩⟩
          rw [hf, Except.error.inj hx]
      · exact fun x s hs => hok hs.2.symm
    · rintro x s ⟨_, h⟩
      cases h
  · intro hp
    exact ends_pure fun s hs => ⟨hs, fun _ h => absurd h hp, fun x => hok⟩

theorem spec_flush (hst : Stable P) :
    Spec a e P (progFlush a e) fun _ s => P s ∧ Synced a s :=
  (ends_flush (P := fun s => Begun a e s ∧ P s)
    fun s f n h => ⟨h.1.stable s f n, hst s f n h.2⟩).weaken (fun s h => h)
    fun r s h => ⟨h.1.1, fun v hv => ⟨h.1.2, h.2.1 hv⟩⟩

theorem spec_progStep {Q : MainSt → Prop} {n : Nat} {msg : String} (hn : n < 6)
    (hP : ∀ s, P s → s.pg.step = n ∧ s.cpAlive = false ∧
      (s.scripts ≠ [] → s.copy = some (.whole e.copied)))
    (hQ : ∀ s, P s → Q (s.update fun d =>
      { d with step := n + 1, msg := msg, steps := d.steps ++ [(n + 1, msg)] }))
    (hst : Stable Q) : Spec a e P (progStep a e (n + 1) msg) fun _ s => Q s ∧ Synced a s := by
  apply spec_bind (Q := fun _ => Q)
  · apply spec_modify
    intro s hb hs
    obtain ⟨h1, h2, h3⟩ := hP s hs
    refine ⟨⟨⟨hn, ?_, hb.lock, fun hc => ?_, fun hv => ?_, fun hv => Or.inl (h3 hv)⟩, hb.error⟩,
      hQ s hs⟩
    · show (s.pg.steps ++ [(n + 1, msg)]).map Prod.fst = List.range' 1 (n + 1)
      rw [List.map_append, hb.steps, h1, List.range'_concat]
      simp [Nat.add_comm]
    · change s.cpAlive = true at hc
      rw [h2] at hc
      cases hc
    · obtain ⟨g1, g2, g3⟩ := hb.vm hv
      rw [h1] at g2
      exact ⟨g1, Nat.le_succ_of_le g2, g3⟩
  · intro _
    exact spec_flush hst

/-! ## the steps, one by one -/

structure Before (n : Nat) (s : MainSt) : Prop where
  step : s.pg.step = n
  scripts : s.scripts = []
  cpAlive : s.cpAlive = false
  lock : s.lock = true

theorem spec_check :
    Spec a e (Before 0) (checkPhase a e) fun _ s => Before 1 s ∧ Checked a e := by
  apply spec_bind (spec_progStep (Q := Before 1) (by decide) ?_ ?_ ?_)
  · intro _
    apply spec_bind (spec_load e.manifest)
    intro based
    apply spec_bind (spec_load e.status)
    intro status
    apply spec_bind (spec_load e.nodeJson)
    intro node
    refine spec_ite (fun _ => spec_throw) fun hrep => ?_
    refine spec_ite (fun _ => spec_throw) fun _ => ?_
    refine spec_ite (fun _ => spec_throw) fun hbase => ?_
    apply spec_bind (spec_load e.statusAgain)
    intro again
    have hchecked : ∀ s : MainSt, (((((Before 1 s ∧ Synced a s) ∧ e.manifest = .ok based) ∧
        e.status = .ok status) ∧ e.nodeJson = .ok node) ∧ e.statusAgain = .ok again) →
        (∀ st, again = some st → 60000 ≤ e.now - st.time ∨ a.force = true) →
        Before 1 s ∧ Checked a e := by
      rintro s ⟨⟨⟨⟨⟨hb, _⟩, hm⟩, _⟩, _⟩, hst⟩ haway
      refine ⟨hb, ⟨?_, Bool.eq_true_of_not_eq_false hrep, fun st h => haway st ?_⟩⟩
      · rw [hm, Bool.eq_true_of_not_eq_false hbase]
      · rw [hst] at h
        exact Except.ok.inj h
    cases again with
    | none => exact spec_pure fun s hs => hchecked s hs fun st h => by cases h
    | some st =>
      refine spec_ite (fun _ => spec_throw) fun halive => ?_
      refine spec_pure fun s hs => hchecked s hs fun st' h => ?_
      obtain rfl := Option.some.inj h
      by_cases hforce : a.force = true
      · exact Or.inr hforce
      · refine Or.inl (Int.not_lt.mp fun hlt => halive ⟨hlt, Bool.eq_false_of_not_eq_true hforce⟩)
  · intro s hs
    exact ⟨hs.step, hs.cpAlive, fun h => absurd hs.scripts h⟩
  · intro s hs
    exact ⟨rfl, hs.scripts, hs.cpAlive, hs.lock⟩
  · intro s f n hs
    exact ⟨hs.step, hs.scripts, hs.cpAlive, hs.lock⟩

theorem spec_wait (n : Nat) : Spec a e P (waitPaused e n) fun _ s => P s := by
  induction n with
  | zero => exact spec_pure fun s hs => hs
  | succ n ih =>
    apply spec_bind (spec_load (e.polls (29 - n)))
    intro p
    apply spec_ite
    · intro _
      exact spec_pure fun s hs => hs.1
    · intro _
      exact ih.weaken (fun s hs => ⟨hs.1, hs.2.1⟩) fun r s hs => hs

theorem spec_quiesce : Spec a e (Before 1) (quiescePhase a e) fun _ s => Before 2 s := by
  apply spec_bind (spec_progStep (Q := Before 2) (by decide) ?_ ?_ ?_)
  · intro _
    apply spec_bind (Q := fun _ s => Before 2 s)
    · have hlock : ∀ (s : MainSt) (b : Bool), Begun a e s → s.lock = true →
          Begun a e { s with lockFile := b } := fun s b h hl =>
        ⟨⟨h.small, h.steps, fun _ => hl, h.cp, h.vm, h.copy⟩, h.error⟩
      unfold writeLock
      cases e.lockWrite with
      | none =>
        refine spec_modify fun s hb hs => ⟨hlock s true hb hs.1.lock, ?_⟩
        exact ⟨hs.1.step, hs.1.scripts, hs.1.cpAlive, hs.1.lock⟩
      | some w =>
        apply spec_bind (Q := fun _ s => True)
        · exact spec_modify fun s hb hs => ⟨hlock s _ hb hs.1.lock, trivial⟩
        · intro _
          exact spec_throw
    · intro _
      exact spec_wait 30
  · intro s hs
    exact ⟨hs.step, hs.cpAlive, fun h => absurd hs.scripts h⟩
  · intro s hs
    exact ⟨rfl, hs.scripts, hs.cpAlive, hs.lock⟩
  · intro s f n hs
    exact ⟨hs.step, hs.scripts, hs.cpAlive, hs.lock⟩

theorem spec_progCopy {done : Nat} {total : Option Nat} (hst : Stable P)
    (hu : ∀ s c, P s → P (s.update fun d => { d with copy := c })) :
    Spec a e P (progCopy a e done total) fun _ s => P s := by
  apply spec_bind (Q := fun _ => P)
  · refine spec_modify fun s hb hs => ⟨?_, hu s _ hs⟩
    exact ⟨⟨hb.small, hb.steps, hb.lock, hb.cp, hb.vm, hb.copy⟩, hb.error⟩
  · intro _
    exact (spec_flush hst).weaken (fun s hs => hs) fun r s hs => ⟨hs.1, fun v hv => (hs.2 v hv).1⟩

theorem spec_copyPoll (hst : Stable P)
    (hu : ∀ s c, P s → P (s.update fun d => { d with copy := c })) (l : List (Option Nat))
    (last : Nat) : Spec a e P (copyPoll a e l last) fun _ s => P s := by
  induction l generalizing last with
  | nil => exact spec_pure fun s hs => hs
  | cons x l ih =>
    cases x with
    | none => exact ih last
    | some done =>
      apply spec_bind (spec_progCopy hst hu)
      intro _
      exact ih done

structure CpDone (e : RebuildEnv) (s : MainSt) : Prop extends Before 3 s where
  copy : s.copy = some (.whole e.copied)

/-- **The copy**: a `cp` that fails, or a flush that does, ends the body. -/
theorem spec_cp :
    Spec a e (Before 3) (copyWithProgress a e) fun _ s => CpDone e s ∧ e.cpRc = 0 := by
  have hrun : ∀ (s : MainSt) (alive : Bool) (c : Option CopyFile), Begun a e s → s.pg.step = 3 →
      s.scripts = [] → Begun a e { s with cpAlive := alive, copy := c } := fun s alive c h h3 h0 =>
    ⟨⟨h.small, h.steps, h.lock, fun _ => h3, h.vm, fun hv => absurd h0 hv⟩, h.error⟩
  apply spec_bind (Q := fun _ s => s.pg.step = 3 ∧ s.scripts = [] ∧ s.lock = true)
  · exact spec_call fun s hb hs => ⟨hrun s _ _ hb hs.step hs.scripts, hs.step, hs.scripts, hs.lock⟩
  · intro _
    apply spec_bind (spec_copyPoll (P := fun s => s.pg.step = 3 ∧ s.scripts = [] ∧ s.lock = true)
      (fun s f n hs => hs) (fun s c hs => hs) e.copyPolls 0)
    intro last
    apply spec_bind (Q := fun _ s => Before 3 s ∧
      s.copy = some (if e.cpRc = 0 then .whole e.copied else .unfinished))
    · exact spec_modify fun s hb hs =>
        ⟨hrun s _ _ hb hs.1 hs.2.1, ⟨hs.1, hs.2.1, rfl, hs.2.2⟩, rfl⟩
    · intro _
      refine spec_ite (fun _ => spec_throw) fun hrc => ?_
      have hrc : e.cpRc = 0 := not_not.mp hrc
      rw [if_pos hrc]
      refine (spec_progCopy (P := fun s => Before 3 s ∧ s.copy = some (.whole e.copied))
        (fun s f n hs => ⟨⟨hs.1.step, hs.1.scripts, hs.1.cpAlive, hs.1.lock⟩, hs.2⟩)
        (fun s c hs => ⟨⟨hs.1.step, hs.1.scripts, hs.1.cpAlive, hs.1.lock⟩, hs.2⟩)).weaken
        (fun s hs => hs) ?_
      exact fun r s hs => ⟨hs.1, fun v hv => ⟨⟨(hs.2 v hv).1, (hs.2 v hv).2⟩, hrc⟩⟩

/-- **`overlay_seed` never returns.** -/
theorem spec_overlay (hP : ∀ s, P s → s.scripts = []) :
    Spec a e P (overlayPhase e) fun _ _ => False := by
  have hlaid : ∀ (s : MainSt) (img : Nat → UInt8), Begun a e s → P s →
      Begun a e { s with copy := some (.whole img) } := fun s img hb hs =>
    ⟨⟨hb.small, hb.steps, hb.lock, hb.cp, hb.vm, fun hv => absurd (hP s hs) hv⟩, hb.error⟩
  unfold overlayPhase
  cases e.overlay with
  | some p =>
    apply spec_bind (Q := fun _ _ => True)
    · exact spec_modify fun s hb hs => ⟨hlaid s p.2 hb hs, trivial⟩
    · intro _
      exact spec_throw
  | none =>
    constructor
    intro s hs r s' hr
    obtain ⟨p, hp, hrs⟩ := Option.map_eq_some_iff.mp hr
    obtain ⟨q, _, rfl⟩ := Option.map_eq_some_iff.mp hp
    obtain ⟨rfl, rfl⟩ := Prod.mk.inj hrs
    refine ⟨hlaid s q.copy hs.1 hs.2, fun v hv => ?_⟩
    rw [log_undefined] at hv
    cases hv

/-- the copy is made and the lock removed -/
structure Copied (a : RebuildArgs) (e : RebuildEnv) (n : Nat) (s : MainSt) : Prop where
  step : s.pg.step = n
  cpAlive : s.cpAlive = false
  copy : s.copy = some (.whole e.copied)
  lockFile : s.lockFile = false
  ready : VmReady a e

theorem spec_copy (hc : Checked a e) (status : StatusJson) :
    Spec a e (Before 2) (copyPhase a e status) fun _ s => Copied a e 3 s ∧ s.scripts = [] := by
  apply spec_bind (spec_call (Q := fun _ => Before 2) fun s hb hs => ⟨hb, hs⟩)
  intro _
  apply spec_bind (spec_progStep (Q := Before 3) (by decide) ?_ ?_ ?_)
  · intro _
    apply spec_bind (spec_cp.weaken (fun s hs => ⟨hs.1, hs.2.1⟩) fun r s hs => hs)
    intro _
    apply spec_bind (Q := fun _ s => CpDone e s ∧ VmReady a e)
    · apply spec_ite
      · intro _
        refine (spec_overlay fun s hs => hs.1.scripts).weaken (fun s hs => hs) fun r s hs => ?_
        exact ⟨hs.1, fun v hv => (hs.2 v hv).elim⟩
      · intro hsrc
        exact spec_pure fun s hs => ⟨hs.1, ⟨hc, hs.2, Bool.eq_false_of_not_eq_true hsrc⟩⟩
    · intro _
      apply spec_bind (Q := fun _ s => Copied a e 3 s ∧ s.scripts = [])
      · refine spec_call fun s hb hs =>
          ⟨?_, ⟨hs.1.step, hs.1.cpAlive, hs.1.copy, rfl, hs.2⟩, hs.1.scripts⟩
        exact ⟨⟨hb.small, hb.steps, fun h => (by cases h), hb.cp, hb.vm, hb.copy⟩, hb.error⟩
      · intro _
        refine spec_modify fun s hb hs => ⟨?_, ⟨hs.1.step, hs.1.cpAlive, hs.1.copy, hs.1.lockFile,
          hs.1.ready⟩, hs.2⟩
        exact ⟨⟨hb.small, hb.steps, fun h => absurd (hs.1.lockFile.symm.trans h) Bool.false_ne_true,
          hb.cp, hb.vm, hb.copy⟩, hb.error⟩
  · intro s hs
    exact ⟨hs.step, hs.cpAlive, fun h => absurd hs.scripts h⟩
  · intro s hs
    exact ⟨rfl, hs.scripts, hs.cpAlive, hs.lock⟩
  · intro s f n hs
    exact ⟨hs.step, hs.scripts, hs.cpAlive, hs.lock⟩

theorem spec_next {n k : Nat} {msg : String} (hn : n < 6) :
    Spec a e (fun s => Copied a e n s ∧ s.scripts.length = k) (progStep a e (n + 1) msg)
      fun _ s => Copied a e (n + 1) s ∧ s.scripts.length = k := by
  refine (spec_progStep (Q := fun s => Copied a e (n + 1) s ∧ s.scripts.length = k)
    hn ?_ ?_ ?_).weaken (fun s hs => hs) fun r s hs => ⟨hs.1, fun v hv => (hs.2 v hv).1⟩
  · exact fun s hs => ⟨hs.1.step, hs.1.cpAlive, fun _ => hs.1.copy⟩
  · exact fun s hs => ⟨⟨rfl, hs.1.cpAlive, hs.1.copy, hs.1.lockFile, hs.1.ready⟩, hs.2⟩
  · exact fun s f n hs =>
      ⟨⟨hs.1.step, hs.1.cpAlive, hs.1.copy, hs.1.lockFile, hs.1.ready⟩, hs.2⟩

theorem spec_create (node : NodeJson) :
    Spec a e (fun s => Copied a e 3 s ∧ s.scripts.length = 0) (createPhase a e node)
      fun _ s => Copied a e 5 s ∧ s.scripts.length = 1 := by
  apply spec_bind (spec_next (by decide))
  intro _
  apply spec_bind (spec_next (by decide))
  intro _
  apply spec_bind (Q := fun _ s => Copied a e 5 s ∧ s.scripts.length = 1)
  · refine spec_modify fun s hb hs => ?_
    have hlen : (s.scripts ++ [createScript a e node]).length = 1 := by
      rw [List.length_append, hs.2]
      rfl
    refine ⟨⟨⟨hb.small, hb.steps, hb.lock, hb.cp, fun _ => ⟨hs.1.ready, hs.1.step.ge, hlen⟩,
      fun _ => Or.inl hs.1.copy⟩, hb.error⟩, ?_, hlen⟩
    exact ⟨hs.1.step, hs.1.cpAlive, hs.1.copy, hs.1.lockFile, hs.1.ready⟩
  · intro _
    apply spec_bind (spec_load e.script)
    intro out
    apply spec_bind (Q := fun _ s => Copied a e 5 s ∧ s.scripts.length = 1)
    · refine spec_modify fun s hb hs => ⟨?_, ⟨hs.1.1.step, hs.1.1.cpAlive, hs.1.1.copy,
        hs.1.1.lockFile, hs.1.1.ready⟩, hs.1.2⟩
      exact ⟨⟨hb.small, hb.steps, hb.lock, hb.cp, hb.vm, hb.copy⟩, hb.error⟩
    · intro _
      exact spec_pure fun s hs => hs

theorem spec_waitUp (n : Nat) : Spec a e P (waitUp e n) fun _ s => P s := by
  induction n with
  | zero => exact spec_pure fun s hs => hs
  | succ n ih =>
    apply spec_bind (spec_load (e.ping (149 - n)))
    intro up
    apply spec_ite
    · intro _
      exact spec_pure fun s hs => hs.1
    · intro _
      exact ih.weaken (fun s hs => ⟨hs.1, hs.2.1⟩) fun r s hs => hs

theorem spec_reach (node : NodeJson) (vmid : String) :
    Spec a e P (reachPhase e node vmid) fun _ s => P s := by
  unfold reachPhase
  cases node.ips with
  | nil => exact spec_pure fun s hs => hs
  | cons ip ips =>
    apply spec_bind (spec_waitUp 150)
    intro up
    exact spec_ite (fun _ => spec_throw) fun _ => spec_pure fun s hs => hs

/-- the node is rebuilt -/
structure Final (a : RebuildArgs) (e : RebuildEnv) (s : MainSt) : Prop where
  step : s.pg.step = 6
  cpAlive : s.cpAlive = false
  copy : s.copy = if a.keepCopy then some (.whole e.copied) else none
  ready : VmReady a e
  scripts : s.scripts.length = 1

theorem spec_boot (node : NodeJson) (vmid : String) :
    Spec a e (fun s => Copied a e 5 s ∧ s.scripts.length = 1) (bootPhase a e node vmid)
      fun c s => c = 0 ∧ Final a e s ∧ s.pg.state = .done ∧ Synced a s := by
  apply spec_bind (spec_next (by decide))
  intro _
  apply spec_bind (spec_reach node vmid)
  intro _
  apply spec_bind (Q := fun _ => Final a e)
  · apply spec_ite
    · intro hkeep
      refine spec_pure fun s hs => ⟨hs.1.step, hs.1.cpAlive, ?_, hs.1.ready, hs.2⟩
      rw [if_pos hkeep]
      exact hs.1.copy
    · intro hkeep
      refine spec_call fun s hb hs => ⟨?_, hs.1.step, hs.1.cpAlive, (if_neg hkeep).symm, hs.1.ready,
        hs.2⟩
      exact ⟨⟨hb.small, hb.steps, hb.lock, hb.cp, hb.vm, fun _ =>
        Or.inr ⟨rfl, hs.1.step, Bool.eq_false_of_not_eq_true hkeep⟩⟩, hb.error⟩
  · intro _
    apply spec_bind (Q := fun _ s => Final a e s ∧ s.pg.state = .done ∧ Synced a s)
    · apply spec_bind (Q := fun _ s => Final a e s ∧ s.pg.state = .done)
      · refine spec_modify fun s hb hs =>
          ⟨?_, ⟨hs.step, hs.cpAlive, hs.copy, hs.ready, hs.scripts⟩, rfl⟩
        exact ⟨⟨hb.small, hb.steps, hb.lock, hb.cp, hb.vm, hb.copy⟩, hb.error⟩
      · intro _
        refine (spec_flush (P := fun s => Final a e s ∧ s.pg.state = .done)
          fun s f n hs =>
            ⟨⟨hs.1.step, hs.1.cpAlive, hs.1.copy, hs.1.ready, hs.1.scripts⟩, hs.2⟩).weaken
          (fun s hs => hs) fun r s hs => ⟨hs.1, fun v hv => ?_⟩
        obtain ⟨⟨h1, h2⟩, h3⟩ := hs.2 v hv
        exact ⟨h1, h2, h3⟩
    · intro _
      exact spec_pure fun s hs => ⟨rfl, hs⟩

/-! ## the end -/

theorem spec_of {c : Prop} {m : MainProg α} {Q : α → MainSt → Prop} (hc : ∀ s, P s → c)
    (h : c → Spec a e P m Q) : Spec a e P m Q := by
  constructor
  intro s hs
  exact (h (hc s hs.2)).post s hs

theorem spec_body : Spec a e (Before 0) (mainBody a e)
    fun c s => c = 0 ∧ Final a e s ∧ s.pg.state = .done ∧ Synced a s := by
  apply spec_bind spec_check
  intro p
  apply spec_of fun s hs => hs.2
  intro hc
  apply spec_bind (spec_quiesce.weaken (fun s hs => ⟨hs.1, hs.2.1⟩) fun r s hs => hs)
  intro _
  apply spec_bind (spec_copy hc p.1)
  intro _
  apply spec_bind ((spec_create p.2).weaken
    (fun s hs => ⟨hs.1, hs.2.1, List.length_eq_zero_iff.mpr hs.2.2⟩) fun r s hs => hs)
  intro vmid
  exact spec_boot p.2 vmid

/-- what an exit code says -/
structure Code (a : RebuildArgs) (e : RebuildEnv) (c : Nat) (s : MainSt) : Prop where
  synced : Synced a s
  code : c = 0 ∧ Final a e s ∧ s.pg.state = .done ∧ s.pg.error = none ∨
    c = 1 ∧ s.pg.state = .failed ∧ s.pg.error ≠ none

theorem ends_failed (err : String) : Ends (Left a e) (mainFailed a e err) fun r s =>
    Left a e s ∧ (∀ c, r = .ok c → Code a e c s) ∧ ∀ x, r = .error x → Unwritten a e x := by
  apply ends_bind (Q := fun r s => Left a e s ∧
    (r = .ok () → Synced a s ∧ s.pg.state = .failed ∧ s.pg.error ≠ none) ∧
    ∀ x, r = .error x → Unwritten a e x)
  · apply ends_bind (Q := fun r s =>
      (Left a e s ∧ s.pg.state = .failed ∧ s.pg.error ≠ none) ∧ r = .ok ())
    · apply ends_modify
      intro s h
      exact ⟨⟨⟨h.small, h.steps, h.lock, h.cp, h.vm, h.copy⟩, rfl, Option.some_ne_none _⟩, rfl⟩
    · intro _
      refine (ends_flush (P := fun s =>
        Left a e s ∧ s.pg.state = .failed ∧ s.pg.error ≠ none) ?_).weaken
        (fun s hs => hs.1) fun r s hs => ⟨hs.1.1, fun hr => ⟨hs.2.1 hr, hs.1.2⟩, hs.2.2⟩
      rintro s f n ⟨h, h'⟩
      exact ⟨⟨h.small, h.steps, h.lock, h.cp, h.vm, h.copy⟩, h'⟩
    · rintro x s ⟨_, h⟩
      cases h
  · intro _
    apply ends_pure
    intro s hs
    refine ⟨hs.1, fun c hc => ?_, fun x h => (by cases h)⟩
    obtain rfl := Except.ok.inj hc
    obtain ⟨h1, h2⟩ := hs.2.1 rfl
    exact ⟨h1, Or.inr ⟨rfl, h2⟩⟩
  · intro x s hs
    refine ⟨hs.1, fun c hc => (by cases hc), fun y hy => hs.2.2 y ?_⟩
    exact congrArg Except.error (Except.error.inj hy)

/-- **The property.** -/
structure Rebuilt (a : RebuildArgs) (e : RebuildEnv) (r : Except String Nat) (s : MainSt) :
    Prop where
  -- 0 with `done` in the progress file, or 1 with `failed` and an error
  code : ∀ c, r = .ok c → Code a e c s
  -- an exception is that of a flush, or of the last `os.remove`
  raises : ∀ x, r = .error x → Unwritten a e x ∨ e.unlockLast = some x
  -- the steps are 1, 2, … in this order, each once
  small : s.pg.step ≤ 6
  steps : s.pg.steps.map Prod.fst = List.range' 1 s.pg.step
  -- there is no lock file, but where its removal raises or `main` does not begin
  lock : s.lockFile = true → e.unlockLast ≠ none ∨ s.pg.step = 0
  -- `cp` goes on only where a flush has raised in step 3
  cp : s.cpAlive = true → s.pg.step = 3
  -- a virtual machine is made at most once, from a copy of a finished `cp`, with all checks passed
  vm : s.scripts ≠ [] → VmReady a e ∧ 5 ≤ s.pg.step ∧ s.scripts.length = 1
  -- and then the copy stays, unless all is done
  copy : s.scripts ≠ [] → s.copy = some (.whole e.copied) ∨
    s.copy = none ∧ s.pg.step = 6 ∧ a.keepCopy = false

theorem ends_mainFinally {r : Except String Nat} :
    Ends (fun s => Left a e s ∧ (∀ c, r = .ok c → Code a e c s) ∧
        ∀ x, r = .error x → Unwritten a e x) (mainFinally e)
      fun u s => (u = .ok () → Rebuilt a e r s) ∧ ∀ x, u = .error x → Rebuilt a e (.error x) s := by
  have hcode : ∀ (s : MainSt) (b : Bool), (∀ c, r = .ok c → Code a e c s) →
      ∀ c, r = .ok c → Code a e c { s with lockFile := b } := by
    intro s b h c hc
    obtain ⟨h1, h2⟩ := h c hc
    refine ⟨h1, h2.imp_left fun g => ⟨g.1, ?_, g.2.2⟩⟩
    exact ⟨g.2.1.step, g.2.1.cpAlive, g.2.1.copy, g.2.1.ready, g.2.1.scripts⟩
  have hok : ∀ {p : Prop} {x : String}, (Except.ok () : Except String Unit) = .error x → p := by
    intro p x h
    cases h
  apply ends_bind (Q := fun v s => (Left a e s ∧ (∀ c, r = .ok c → Code a e c s) ∧
    ∀ x, r = .error x → Unwritten a e x) ∧ v = .ok s)
  · exact ends_get fun s hs => ⟨hs, rfl⟩
  · intro t
    apply ends_ite
    · intro hlock
      unfold tryCall
      cases hu : e.unlockLast with
      | none =>
        apply ends_modify
        rintro s ⟨⟨h, hc, hx⟩, _⟩
        refine ⟨fun _ => ⟨hcode s false hc, fun x e => Or.inl (hx x e), h.small, h.steps,
          fun e => (by cases e), h.cp, h.vm, h.copy⟩, fun x => hok⟩
      | some x =>
        apply ends_throw
        rintro s ⟨⟨h, _⟩, _⟩
        refine ⟨fun e => (by cases e), fun y hy => ⟨fun c e => (by cases e), fun z hz => Or.inr ?_,
          h.small, h.steps, fun _ => Or.inl ?_, h.cp, h.vm, h.copy⟩⟩
        · rw [hu, Except.error.inj hy, Except.error.inj hz]
        · rw [hu]
          exact Option.some_ne_none x
    · intro hlock
      apply ends_pure
      rintro s ⟨⟨h, hc, hx⟩, ht⟩
      obtain rfl := Except.ok.inj ht
      refine ⟨fun _ => ⟨hc, fun x e => Or.inl (hx x e), h.small, h.steps,
        fun hl => absurd ?_ hlock, h.cp, h.vm, h.copy⟩, fun x => hok⟩
      rw [h.lock hl, hl]
      rfl
  · rintro x s ⟨_, ht⟩
    cases ht

theorem begun_init (file : Option ProgDoc) (there : Bool) :
    Begun a e (.init file there) ∧ Before 0 (.init file there) :=
  ⟨⟨⟨Nat.zero_le 6, rfl, fun _ => rfl, fun h => (by cases h), fun h => absurd rfl h,
    fun h => absurd rfl h⟩, rfl⟩, ⟨rfl, rfl, rfl, rfl⟩⟩

theorem ends_try : Ends (fun s => Begun a e s ∧ Before 0 s)
    (tryFinally (tryCatch (mainBody a e) (mainFailed a e)) (mainFinally e)) (Rebuilt a e) := by
  apply ends_finally _ fun r => ends_mainFinally
  apply ends_tryCatch spec_body
  · rintro c s ⟨h, hq⟩
    refine ⟨h.toLeft, fun c' hc => ?_, fun x hx => by cases hx⟩
    obtain rfl := Except.ok.inj hc
    obtain ⟨h0, hf, hd, hs⟩ := hq c rfl
    exact ⟨hs, Or.inl ⟨h0, hf, hd, h.error⟩⟩
  · intro x
    exact (ends_failed x).weaken (fun s hs => hs.1.toLeft) fun r s hs => hs

end

/-! ## `main` ends -/

section
variable (a : RebuildArgs) (e : RebuildEnv)

theorem halts_load {α : Type} (x : Except String α) : Halts (tryLoad x) := by
  cases x with
  | ok v => exact halts_pure v
  | error t => exact halts_throw t

theorem halts_call (x : Option String) (g : MainSt → MainSt) : Halts (tryCall x g) := by
  cases x with
  | none => exact halts_modify g
  | some t => exact halts_throw t

theorem halts_flush : Halts (progFlush a e) := by
  apply halts_ite _ (halts_pure _)
  apply halts_bind halts_get
  intro s
  exact halts_bind (halts_modify _) fun _ => halts_call _ _

theorem halts_progStep (n : Nat) (msg : String) : Halts (progStep a e n msg) :=
  halts_bind (halts_modify _) fun _ => halts_flush a e

theorem halts_progCopy (done : Nat) (total : Option Nat) : Halts (progCopy a e done total) :=
  halts_bind (halts_modify _) fun _ => halts_flush a e

theorem halts_check : Halts (checkPhase a e) := by
  apply halts_bind (halts_progStep a e _ _)
  intro _
  apply halts_bind (halts_load e.manifest)
  intro based
  apply halts_bind (halts_load e.status)
  intro status
  apply halts_bind (halts_load e.nodeJson)
  intro node
  apply halts_ite (halts_throw _)
  apply halts_ite (halts_throw _)
  apply halts_ite (halts_throw _)
  apply halts_bind (halts_load e.statusAgain)
  intro again
  cases again with
  | none => exact halts_pure _
  | some st => exact halts_ite (halts_throw _) (halts_pure _)

theorem halts_wait (n : Nat) : Halts (waitPaused e n) := by
  induction n with
  | zero => exact halts_pure ()
  | succ n ih =>
    apply halts_bind (halts_load _)
    intro p
    exact halts_ite (halts_pure _) ih

theorem halts_quiesce : Halts (quiescePhase a e) := by
  apply halts_bind (halts_progStep a e _ _)
  intro _
  apply halts_bind _ fun _ => halts_wait e 30
  unfold writeLock
  cases e.lockWrite with
  | none => exact halts_modify _
  | some w => exact halts_bind (halts_modify _) fun _ => halts_throw _

theorem halts_copyPoll (l : List (Option Nat)) (last : Nat) : Halts (copyPoll a e l last) := by
  induction l generalizing last with
  | nil => exact halts_pure last
  | cons x l ih =>
    cases x with
    | none => exact ih last
    | some done => exact halts_bind (halts_progCopy a e _ _) fun _ => ih done

theorem halts_overlay : Halts (overlayPhase e) := by
  unfold overlayPhase
  cases e.overlay with
  | some p => exact halts_bind (halts_modify _) fun _ => halts_throw p.1
  | none =>
    intro s
    obtain ⟨t, ht, _⟩ := regions_laid e.seedFile e.reads (e.seedFile.eof + 1) 0 ⟨e.copied, 0, 0⟩
      (Nat.zero_le _) (by omega)
    have hcall : overlaySeedCall e.seedFile e.reads e.copied = some (globalName "log", t) := by
      unfold overlaySeedCall
      rw [ht]
      rfl
    exact ⟨_, _, congrArg (Option.map _) hcall⟩

theorem halts_copy (status : StatusJson) : Halts (copyPhase a e status) := by
  apply halts_bind (halts_call _ _)
  intro _
  apply halts_bind (halts_progStep a e _ _)
  intro _
  apply halts_bind
  · apply halts_bind (halts_call _ _)
    intro _
    apply halts_bind (halts_copyPoll a e _ _)
    intro last
    apply halts_bind (halts_modify _)
    intro _
    exact halts_ite (halts_throw _) (halts_progCopy a e _ _)
  · intro _
    apply halts_bind (halts_ite (halts_overlay e) (halts_pure _))
    intro _
    exact halts_bind (halts_call _ _) fun _ => halts_modify _

theorem halts_create (node : NodeJson) : Halts (createPhase a e node) := by
  apply halts_bind (halts_progStep a e _ _)
  intro _
  apply halts_bind (halts_progStep a e _ _)
  intro _
  apply halts_bind (halts_modify _)
  intro _
  apply halts_bind (halts_load e.script)
  intro out
  exact halts_bind (halts_modify _) fun _ => halts_pure _

theorem halts_waitUp (n : Nat) : Halts (waitUp e n) := by
  induction n with
  | zero => exact halts_pure false
  | succ n ih =>
    apply halts_bind (halts_load _)
    intro up
    exact halts_ite (halts_pure _) ih

theorem halts_boot (node : NodeJson) (vmid : String) : Halts (bootPhase a e node vmid) := by
  apply halts_bind (halts_progStep a e _ _)
  intro _
  apply halts_bind
  · unfold reachPhase
    cases node.ips with
    | nil => exact halts_pure ()
    | cons ip ips =>
      apply halts_bind (halts_waitUp e 150)
      intro up
      exact halts_ite (halts_throw _) (halts_pure _)
  · intro _
    apply halts_bind (halts_ite (halts_pure _) (halts_call _ _))
    intro _
    apply halts_bind (halts_bind (halts_modify _) fun _ => halts_flush a e)
    intro _
    exact halts_pure 0

theorem halts_body : Halts (mainBody a e) := by
  apply halts_bind (halts_check a e)
  intro p
  apply halts_bind (halts_quiesce a e)
  intro _
  apply halts_bind (halts_copy a e p.1)
  intro _
  apply halts_bind (halts_create a e p.2)
  intro vmid
  exact halts_boot a e p.2 vmid

theorem rebuild_halts : Halts (rebuildMain a e) := by
  apply halts_bind (halts_flush a e)
  intro _
  apply halts_tryFinally
  · apply halts_tryCatch (halts_body a e)
    intro x
    exact halts_bind (halts_bind (halts_modify _) fun _ => halts_flush a e) fun _ => halts_pure 1
  · apply halts_bind halts_get
    intro s
    exact halts_ite (halts_call _ _) (halts_pure _)

theorem rebuild_rebuilt (file : Option ProgDoc) (there : Bool) (r : Except String Nat) (s : MainSt)
    (hr : (rebuildMain a e).run (.init file there) = some (r, s)) : Rebuilt a e r s := by
  suffices h : Ends (fun s => Begun a e s ∧ Before 0 s) (rebuildMain a e) (Rebuilt a e) from
    h.post _ (begun_init file there) r s hr
  apply ends_bind (ends_flush fun s f n h => ⟨h.1.stable s f n, ⟨h.2.step, h.2.scripts, h.2.cpAlive,
    h.2.lock⟩⟩)
  · intro _
    exact ends_try.weaken (fun s hs => hs.1) fun r s hs => hs
  · rintro x s ⟨⟨h, h'⟩, _, hx⟩
    refine ⟨fun c hc => (by cases hc), fun y hy => Or.inl ?_, h.small, h.steps,
      fun _ => Or.inr h'.step, h.cp, h.vm, h.copy⟩
    exact hx y (congrArg Except.error (Except.error.inj hy))

/-- **`main` of `rkcdp-rebuild`** ends, whatever its calls return or raise and whatever is there
before, and leaves `Rebuilt`. -/
theorem rebuild_ends (file : Option ProgDoc) (there : Bool) :
    ∃ r s, (rebuildMain a e).run (.init file there) = some (r, s) ∧ Rebuilt a e r s := by
  obtain ⟨r, s, hr⟩ := rebuild_halts a e (.init file there)
  exact ⟨r, s, hr, rebuild_rebuilt a e file there r s hr⟩

/-- **`--from seed`**: no end is a success. -/
theorem seed_never (file : Option ProgDoc) (there : Bool) (hseed : a.fromSeed = true)
    (r : Except String Nat) (s : MainSt)
    (hr : (rebuildMain a e).run (.init file there) = some (r, s)) : s.scripts = [] ∧ r ≠ .ok 0 := by
  have h := rebuild_rebuilt a e file there r s hr
  have hnot : ¬ VmReady a e := fun hg => absurd (hg.source.symm.trans hseed) Bool.false_ne_true
  refine ⟨not_not.mp fun hv => hnot (h.vm hv).1, fun hc => ?_⟩
  obtain ⟨_, hf, _⟩ | ⟨h1, _⟩ := (h.code 0 hc).code
  · exact hnot hf.ready
  · cases h1

end

end CDP

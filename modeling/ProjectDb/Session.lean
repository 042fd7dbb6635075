import ProjectDb.Calls
import ProjectDb.Recovery

namespace ProjectDb
namespace ProjectDbImpl

namespace Call

/-- The write that a call performs, if it is one. -/
def operation : Call → Option Operation
  | get _ => none
  | set key value => some (.set key value)
  | remove key => some (.remove key)

/-- What a call leaves under a key. -/
def leaves (call : Call) (key : Key) (found : Option Value) : Option Value :=
  match call.operation with
  | none => found
  | some op => if key = op.key then some op.written else found

/-- What a call answers on the tables of a view. -/
def answer (call : Call) (v : View) : Option StdString :=
  match call with
  | get key => v.answer key
  | _ => none

end Call

variable {cfg : Config} {fmt : LogFormat} {permit : List SSTable → Nat → Prop} {v w : View} {n : Nat}
  {db next start : ProjectDbImpl}

/-- What a call comes to: tables move from the MemTables to the SSTables or a
compaction is installed, the call answers, and then it writes. -/
structure Called (cfg : Config) (permit : List SSTable → Nat → Prop) (v w : View) (call : Call)
    (answer : Option StdString) : Prop where
  settled : w.Settled
  retired : w.retired = v.retired
  effect : ∃ mid, Carried cfg permit v mid ∧ answer = call.answer mid ∧
    ∀ key, lookup w.layers key = call.leaves key (lookup mid.layers key)

theorem Wrote.called {call : Call} {op : Operation} (wrote : Wrote cfg permit v w op) (write : call.operation = some op)
    (silent : ∀ mid, call.answer mid = none) : Called cfg permit v w call none := by
  obtain ⟨settled, retired, mid, carried, lookups⟩ := wrote
  refine ⟨settled, retired, mid, carried, (silent mid).symm, fun key => ?_⟩
  rw [lookups, Call.leaves, write]

theorem Called.assertion {call : Call} {answer : Option StdString} :
    Prog.Assertion (Others cfg permit) (Lasting cfg permit v.retired)
      fun t => ∃ w, Called cfg permit v w call answer ∧ Ready cfg permit w n t := by
  refine ⟨?_, ?_⟩
  · rintro s t ⟨w, called, ready⟩ step
    exact ⟨w, called, (Ready.settled called.settled _ rfl).stable ready step⟩
  · rintro s ⟨w, called, ready⟩
    exact called.retired ▸ ready.lasting called.settled.lined

/-- A call of the interface among the steps of the jobs: it returns, and never
throws. -/
theorem Ready.call (ready : Ready cfg permit v (n + 2) db) (settled : v.Settled) (fmt : LogFormat) (call : Call) :
    (call.prog cfg fmt).Safe (Others cfg permit) (Lasting cfg permit v.retired) (fun _ => False)
      (fun answer t => ∃ w, Called cfg permit v w call answer ∧ Ready cfg permit w n t) db := by
  cases call with
  | get key =>
    refine (ready.get settled key).mono fun answer t holds => ?_
    obtain ⟨w, ⟨carried, same⟩, now⟩ := holds
    exact ⟨w, ⟨carried.settled, carried.retired, w, carried, same, fun _ => rfl⟩, now.mono (Nat.le_add_right n 2)⟩
  | set key value =>
    refine (ready.write settled fmt (.set key value)).bind fun _ t holds => ?_
    obtain ⟨w, wrote, now⟩ := holds
    exact Prog.Safe.ret (Q := fun answer t => ∃ w, Called cfg permit v w (.set key value) answer ∧ Ready cfg permit w n t)
      Called.assertion ⟨w, wrote.called rfl fun _ => rfl, now⟩
  | remove key =>
    refine (ready.write settled fmt (.remove key)).bind fun _ t holds => ?_
    obtain ⟨w, wrote, now⟩ := holds
    exact Prog.Safe.ret (Q := fun answer t => ∃ w, Called cfg permit v w (.remove key) answer ∧ Ready cfg permit w n t)
      Called.assertion ⟨w, wrote.called rfl fun _ => rfl, now⟩

/-- The counters of the files are below `2 ^ 31`. -/
def Bounded (db : ProjectDbImpl) : Prop :=
  db.ssTableFileCounterBase < 2 ^ 31 ∧ db.transactionLogFileCounterBase < 2 ^ 31

instance (db : ProjectDbImpl) : Decidable db.Bounded := inferInstanceAs (Decidable (_ ∧ _))

theorem Inv.ready (inv : Inv cfg permit v db) (bounded : db.Bounded) : Ready cfg permit v 2 db := by
  obtain ⟨sst, txl⟩ := bounded
  exact ⟨inv, by omega, by omega⟩

/-- A call and its outcome. -/
abbrev Event := Call × Except Exn (Option StdString)

/-- The calls on a database from some state on, among steps of the jobs at any
time, while the counters stay below their bound. -/
inductive Session (cfg : Config) (fmt : LogFormat) (permit : List SSTable → Nat → Prop) (start : ProjectDbImpl) :
    List Event → ProjectDbImpl → Prop
  | opened : Session cfg fmt permit start [] start
  | job {events : List Event} {db next : ProjectDbImpl} : Session cfg fmt permit start events db →
      Others cfg permit db next → Session cfg fmt permit start events next
  | returned {events : List Event} {db next : ProjectDbImpl} {call : Call} {answer : Option StdString} :
      Session cfg fmt permit start events db → db.Bounded →
      Prog.Reaches (Others cfg permit) (call.prog cfg fmt) db (.ret answer) next →
      Session cfg fmt permit start (events ++ [(call, .ok answer)]) next
  | threw {events : List Event} {db next : ProjectDbImpl} {call : Call} {e : Exn} :
      Session cfg fmt permit start events db → db.Bounded →
      Prog.Reaches (Others cfg permit) (call.prog cfg fmt) db (.throw e) next →
      Session cfg fmt permit start (events ++ [(call, .error e)]) next

/-- What one call of a session does to the view. -/
theorem Inv.returned {call : Call} {answer : Option StdString} (inv : Inv cfg permit v db) (settled : v.Settled)
    (bounded : db.Bounded) (path : Prog.Reaches (Others cfg permit) (call.prog cfg fmt) db (.ret answer) next) :
    ∃ w, Called cfg permit v w call answer ∧ Inv cfg permit w next := by
  obtain ⟨w, called, ready⟩ := (((inv.ready bounded).call settled fmt call).reaches path).returned
  exact ⟨w, called, ready.inv⟩

theorem Inv.notThrown {call : Call} {e : Exn} (inv : Inv cfg permit v db) (settled : v.Settled) (bounded : db.Bounded)
    (path : Prog.Reaches (Others cfg permit) (call.prog cfg fmt) db (.throw e) next) : False :=
  (((inv.ready bounded).call settled fmt call).reaches path).2

/-- In every state of a session the invariant holds, for a settled view. -/
theorem Session.inv {events : List Event} (session : Session cfg fmt permit start events db)
    (inv : Inv cfg permit v start) (settled : v.Settled) :
    ∃ w, Inv cfg permit w db ∧ w.Settled ∧ w.retired = v.retired := by
  induction session with
  | opened => exact ⟨v, inv, settled, rfl⟩
  | job _ step ih =>
    obtain ⟨w, now, still, retired⟩ := ih
    exact ⟨w, now.others step, still, retired⟩
  | returned _ bounded path ih =>
    obtain ⟨w, now, still, retired⟩ := ih
    obtain ⟨x, called, later⟩ := now.returned still bounded path
    exact ⟨x, later, called.settled, called.retired.trans retired⟩
  | threw _ bounded path ih =>
    obtain ⟨w, now, still, _⟩ := ih
    exact (now.notThrown still bounded path).elim

/-- What `init` makes of a directory, as a process with any counters opens it. -/
def Opened (cfg : Config) (fmt : LogFormat) (permit : List SSTable → Nat → Prop) (files : Files) (db : ProjectDbImpl) :
    Prop :=
  ∃ now ssTableBase transactionLogBase, ssTableBase < 2 ^ 31 ∧ transactionLogBase < 2 ^ 31 ∧
    Prog.Reaches (Others cfg permit) (init cfg fmt) (fresh files now ssTableBase transactionLogBase) (.ret ()) db

section Opened
variable {files : Files} {tables : List (Nat × SSTable)} {logs : List (Nat × List Byte)} {memory : List Table}

theorem Opened.on (opened : Opened cfg fmt permit files db) (disk : Disk files tables logs)
    (loads : LogsLoad fmt logs memory) : OpenedOn cfg permit tables logs memory db := by
  obtain ⟨now, ssTableBase, transactionLogBase, low, _, path⟩ := opened
  exact ((init_safe disk loads now transactionLogBase low.le).reaches path).returned

theorem Opened.loads (opened : Opened cfg fmt permit files db) (disk : Disk files tables logs) :
    ∃ memory, LogsLoad fmt logs memory := by
  obtain ⟨now, ssTableBase, transactionLogBase, _, _, path⟩ := opened
  exact init_loads disk path

theorem openedView_settled (xs : List Indexed) (logs : List (Nat × List Byte)) (memory : List Table) :
    (openedView xs logs memory).Settled := ⟨rfl, rfl⟩

end Opened

end ProjectDbImpl
end ProjectDb

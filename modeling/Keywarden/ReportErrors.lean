import Keywarden.AccessRun
import Keywarden.KeyRun
import Keywarden.ServerAccounts

/-!
# Sync reports that fail

`sync_report` stores a telemetry event and then the accounts, one statement each and no
transaction around them. An account that its column refuses ends the request in an error,
with everything before it stored.
-/
namespace Keywarden.ReportErrors

open Rows Text Keys ServerAccounts

/-- How the driver and PostgreSQL take a dictionary for a `jsonb` column, over the values that
JSON has. -/
structure JsonColumn (J : Type) where
  number : Nat → J
  takes : List (String × J) → Bool

/-- The body of a report. -/
structure Report (J : Type) where
  appliedCount : Nat := 0
  revokedCount : Nat := 0
  message : Option (List Char) := none
  metadata : List (String × J) := []
  accounts : List AccountSyncIn := []

/-- `TelemetryEvent`; the user is not set by reports. -/
structure TelemetryEvent (J : Type) where
  eventType : List Char
  server : ServerId
  success : Bool
  source : List Char
  message : List Char
  metadata : List (String × J)
  createdAt : Instant

structure ReportDb (J : Type) extends Db where
  telemetryEvents : List (TelemetryEvent J) := []

section
variable {J : Type} (C : JsonColumn J)

/-- `{**counts, **metadata}`: a key of the metadata takes the place of a count. -/
def mergedMetadata (payload : Report J) : List (String × J) :=
  [("applied_count", C.number payload.appliedCount), ("revoked_count", C.number payload.revokedCount)].filter
    (fun count => payload.metadata.all fun entry => entry.1 ≠ count.1) ++ payload.metadata

def agentSync (now : Instant) (server : ServerId) (payload : Report J) : TelemetryEvent J where
  eventType := "agent_sync".toList
  server := server
  success := true
  source := "agent".toList
  message := strip isSpace (payload.message.getD [])
  metadata := mergedMetadata C payload
  createdAt := now

/-- The event fits its columns. -/
def eventFits (e : TelemetryEvent J) : Bool :=
  fitsColumn 64 e.eventType && fitsColumn 16 e.source && !e.message.contains '\x00' &&
    C.takes e.metadata

def syncReport (now : Instant) (serverId : Nat) (payload : Report J) (db : ReportDb J) :
    Except Raised Unit × ReportDb J :=
  match db.servers.find serverId with
  | none => (.error (.http ⟨404, none, "Server not found"⟩), db)
  | some server =>
    let event := agentSync C now server.id payload
    if !eventFits C event then (.error writeFailed, db)
    else
      let stored := { db with telemetryEvents := db.telemetryEvents ++ [event] }
      let (r, accounts) := updateServerAccounts now server.id payload.accounts stored.toDb
      (r, { stored with toDb := accounts })

/-- A report that ends in an error leaves no event and no change of an account. -/
def LeavesNothing (now : Instant) (serverId : Nat) (payload : Report J) (db : ReportDb J) : Prop :=
  ∀ e, (syncReport C now serverId payload db).1 = .error e →
    (syncReport C now serverId payload db).2.telemetryEvents = db.telemetryEvents ∧
      (syncReport C now serverId payload db).2.serverAccounts = db.serverAccounts

/-- The accounts of users that there are fit their column. -/
def AccountsFit (db : Db) (accounts : List AccountSyncIn) : Prop :=
  ∀ a ∈ accounts, (findUser a.userId db).isSome = true → fitsColumn 128 a.systemUsername = true

/-- The report is about no server, or its event is refused, or all of it can be stored. -/
def AllOrNone (now : Instant) (serverId : Nat) (payload : Report J) (db : ReportDb J) : Prop :=
  ∀ server, db.servers.find serverId = some server →
    eventFits C (agentSync C now server.id payload) = true → AccountsFit db.toDb payload.accounts

end

/-! ## The accounts -/

theorem updateServerAccounts_ok_iff (now : Instant) (server : ServerId)
    (accounts : List AccountSyncIn) (db : Db) :
    (updateServerAccounts now server accounts db).1 = .ok () ↔ AccountsFit db accounts := by
  induction accounts generalizing db with
  | nil => exact iff_of_true rfl fun a ha => by cases ha
  | cons account accounts ih =>
    rw [AccountsFit, List.forall_mem_cons]
    unfold updateServerAccounts
    split
    · next hnone =>
      rw [ih, hnone]
      exact ⟨fun h => ⟨fun hsome => (by cases hsome), h⟩, fun h => h.2⟩
    · next user huser =>
      split
      · next hfits =>
        rw [ih]
        exact ⟨fun h => ⟨fun _ => hfits, h⟩, fun h => h.2⟩
      · next hfits =>
        refine iff_of_false (fun h => by cases h) fun h => hfits (h.1 ?_)
        rw [huser]
        rfl

/-! ## The report -/

variable {J : Type} {C : JsonColumn J} {now : Instant} {serverId : Nat} {payload : Report J}
  {db : ReportDb J} {server : Server}

theorem syncReport_refused (hserver : db.servers.find serverId = some server)
    (hevent : ¬ eventFits C (agentSync C now server.id payload) = true) :
    syncReport C now serverId payload db = (.error writeFailed, db) := by
  unfold syncReport
  rw [hserver]
  exact if_pos (by simpa using hevent)

/-- The event is stored whatever becomes of the accounts. -/
theorem syncReport_stored (hserver : db.servers.find serverId = some server)
    (hevent : eventFits C (agentSync C now server.id payload) = true) :
    (syncReport C now serverId payload db).1 =
        (updateServerAccounts now server.id payload.accounts db.toDb).1 ∧
      (syncReport C now serverId payload db).2.telemetryEvents =
        db.telemetryEvents ++ [agentSync C now server.id payload] ∧
      (syncReport C now serverId payload db).2.toDb =
        (updateServerAccounts now server.id payload.accounts db.toDb).2 := by
  unfold syncReport
  rw [hserver]
  simp only [hevent, Bool.not_true, Bool.false_eq_true, if_false, and_self]

/-- The accounts are written as by the report without its event. -/
theorem syncReport_accounts (C : JsonColumn J) (now : Instant) (serverId : Nat) (payload : Report J)
    (db : ReportDb J) : ((syncReport C now serverId payload db).1,
      (syncReport C now serverId payload db).2.toDb) =
        ServerAccounts.syncReport now serverId ⟨payload.accounts,
          (db.servers.find serverId).any fun server =>
            eventFits C (agentSync C now server.id payload)⟩ db.toDb := by
  unfold ServerAccounts.syncReport
  cases hserver : db.servers.find serverId with
  | none =>
    unfold syncReport
    rw [hserver]
  | some server =>
    simp only [Option.any_some]
    by_cases hevent : eventFits C (agentSync C now server.id payload) = true
    · obtain ⟨hr, _, hdb⟩ := syncReport_stored hserver hevent
      rw [if_pos hevent, hr, hdb]
    · rw [if_neg hevent, syncReport_refused hserver hevent]

/-- For any report: if it ends in an error nothing of it is stored, if and only if it is about no
server, or its event is refused, or all its accounts can be stored. -/
theorem leavesNothing_iff (C : JsonColumn J) (now : Instant) (serverId : Nat) (payload : Report J)
    (db : ReportDb J) :
    LeavesNothing C now serverId payload db ↔ AllOrNone C now serverId payload db := by
  constructor
  · intro h server hserver hevent
    obtain ⟨hr, hevents, _⟩ := syncReport_stored hserver hevent
    rw [← updateServerAccounts_ok_iff now server.id]
    cases hresult : (updateServerAccounts now server.id payload.accounts db.toDb).1 with
    | ok => rfl
    | error e =>
      have hsame := (h e (hr.trans hresult)).1
      rw [hevents] at hsame
      exact absurd (List.append_right_eq_self.mp hsame) (List.cons_ne_nil _ _)
  · intro h e he
    cases hserver : db.servers.find serverId with
    | none =>
      unfold syncReport
      rw [hserver]
      exact ⟨rfl, rfl⟩
    | some server =>
      by_cases hevent : eventFits C (agentSync C now server.id payload) = true
      · have hok := (updateServerAccounts_ok_iff now server.id _ _).mpr (h server hserver hevent)
        rw [(syncReport_stored hserver hevent).1, hok] at he
        cases he
      · rw [syncReport_refused hserver hevent]
        exact ⟨rfl, rfl⟩

/-- Metadata that the column always takes, with numbers alone. -/
def numbers : JsonColumn Nat := ⟨id, fun _ => true⟩

def reporting : ReportDb Nat where
  users := KeyRun.oneUser.users
  servers := AccessRun.oneServer.servers

/-- The system username does not fit, and the event of the report stays. -/
theorem long_username_keeps_event : ¬ ∀ (J : Type) (C : JsonColumn J) (now : Instant) (serverId : Nat)
    (payload : Report J) (db : ReportDb J), LeavesNothing C now serverId payload db := by
  intro h
  have hevents := (h Nat numbers 0 1 { accounts := [⟨1, List.replicate 129 'a', true⟩] } reporting
    writeFailed (by decide +kernel)).1
  have hlength := congrArg List.length hevents
  exact absurd hlength (by decide +kernel)

end Keywarden.ReportErrors

import Keywarden.Keys

/-!
# Sync reports

`sync_report` of the agent API and the account rows it writes. The system
username of a report is stored as it comes; a report is not a transaction, so the
accounts before one that cannot be stored stay.
-/
namespace Keywarden.ServerAccounts

open Rows Keys

structure AccountSyncIn where
  userId : Int
  systemUsername : List Char
  present : Bool
  deriving DecidableEq, Repr

/-- The accounts of a report, and whether its telemetry event, which is written
first, can be stored. -/
structure SyncReportIn where
  accounts : List AccountSyncIn
  telemetryStored : Bool
  deriving DecidableEq, Repr

def accountRow (server : ServerId) (user : User) (now : Instant) (account : AccountSyncIn) :
    ServerAccount where
  server := server
  user := user.id
  systemUsername := account.systemUsername
  isPresent := account.present
  lastSyncedAt := now

def updateServerAccounts (now : Instant) (server : ServerId) : List AccountSyncIn → Call Unit
  | [], db => (.ok (), db)
  | account :: accounts, db =>
    match findUser account.userId db with
    | none => updateServerAccounts now server accounts db
    | some user =>
      if fitsColumn 128 account.systemUsername then
        updateServerAccounts now server accounts { db with
          serverAccounts := db.serverAccounts.upsert (accountRow server user now account) }
      else (.error writeFailed, db)

def syncReport (now : Instant) (serverId : Nat) (payload : SyncReportIn) : Call Unit := fun db =>
  match db.servers.find serverId with
  | none => (.error (.http ⟨404, none, "Server not found"⟩), db)
  | some server =>
    if payload.telemetryStored then updateServerAccounts now server.id payload.accounts db
    else (.error writeFailed, db)

theorem updateServerAccounts_frame (now : Instant) (server : ServerId)
    (accounts : List AccountSyncIn) (db : Db) :
    ∃ t, (updateServerAccounts now server accounts db).2 = { db with serverAccounts := t } := by
  induction accounts generalizing db with
  | nil => exact ⟨_, rfl⟩
  | cons account accounts ih =>
    unfold updateServerAccounts
    split
    · exact ih db
    · split
      · obtain ⟨t, ht⟩ := ih { db with
          serverAccounts := db.serverAccounts.upsert (accountRow server _ now account) }
        exact ⟨t, ht⟩
      · exact ⟨_, rfl⟩

/-- A report changes account rows only. -/
theorem syncReport_frame (now : Instant) (serverId : Nat) (payload : SyncReportIn) (db : Db) :
    ∃ t, (syncReport now serverId payload db).2 = { db with serverAccounts := t } := by
  unfold syncReport
  split
  · exact ⟨_, rfl⟩
  · split
    · exact updateServerAccounts_frame _ _ _ _
    · exact ⟨_, rfl⟩

end Keywarden.ServerAccounts

import Mathlib.Logic.Relation
import Keywarden.ErasureRun

/-!
# What the handlers write

Every request, job and report comes down to a few kinds of writes to the database. Each
kind is stated here once, with what the code makes sure of before it, and each call is
taken apart into such writes. An invariant of all runs is then a matter of the writes.
-/
namespace Keywarden.Writes

open Rows Text Transitions Keys Erasure Authorization ErasureRun Relation

/-- The permissions that a receiver assigns to the owner of an object. -/
def OwnerPerm (p : Perm) : Prop := permModel p ≠ .server ∧ isAdd p = false

instance (p : Perm) : Decidable (OwnerPerm p) := inferInstanceAs (Decidable (_ ∧ _))

def Owns (db : Db) (u : UserId) : ObjectModel → Nat → Prop
  | .sshkey, o => ∃ k ∈ db.sshKeys, k.id = o ∧ k.user = u
  | .accessrequest, o => ∃ r ∈ db.accessRequests, r.id = o ∧ r.requester = u
  | .server, _ => False

/-- Users who have an account. -/
def Active (db : Db) (u : UserId) : Prop := ∃ v ∈ db.users, v.id = u ∧ v.isActive = true

/-! ## The kinds of writes -/

/-- What a save may change of a key: its name, and whether it is revoked. -/
structure KeySaved (now : Instant) (key key' : SSHKey) : Prop where
  frame : ∃ name active revoked,
    key' = { key with name := name, isActive := active, revokedAt := revoked }
  state : (key'.isActive = key.isActive ∧ key'.revokedAt = key.revokedAt) ∨
    (key'.isActive = true ∧ key'.revokedAt = none) ∨
    (key'.isActive = false ∧ key'.revokedAt = some now)

/-- What `update_request` may change of a request. -/
structure RequestSaved (now : Instant) (row r : AccessRequest) : Prop where
  frame : ∃ status decidedAt expiresAt decidedBy, r = { row with
    status := status, decidedAt := decidedAt, expiresAt := expiresAt, decidedBy := decidedBy }
  decision : (r.status = row.status ∧ r.decidedAt = row.decidedAt ∧ r.decidedBy = row.decidedBy) ∨
    ((∃ caller, r.decidedBy = some caller) ∧ r.decidedAt = some now ∧
      r.status ∈ [Status.approved, .denied, .revoked, .cancelled]) ∨
    (row.status = .pending ∧ r.status = .cancelled ∧ r.decidedAt = some now ∧ r.decidedBy = none)

/-- One write at `now` to what users of `A` have, with which no request is decided and
nobody gains or loses access to a server. -/
inductive Aside (A : UserId → Prop) (now : Instant) (db : Db) : Db → Prop
  | authorities (t : Table SSHCertificateAuthority) :
      Aside A now db { db with certificateAuthorities := t }
  | accounts (t : Table ServerAccount) : Aside A now db { db with serverAccounts := t }
  | certify {cert : SSHCertificate} (howner : Owns db cert.user .sshkey cert.key) (hA : A cert.user) :
      Aside A now db { db with sshCertificates := db.sshCertificates.upsert cert }
  | revokeCertificates {q : SSHCertificate → Bool} (hA : ∀ c ∈ db.sshCertificates, q c = true →
      Owns db c.user .sshkey c.key → A c.user) :
      Aside A now db { db with
        sshCertificates := db.sshCertificates.update q (revokedCertificate now) }
  | insertKey {key : SSHKey} (hcreated : key.createdAt = now) (hactive : key.isActive = true)
      (hrevoked : key.revokedAt = none)
      (hunique : ∀ k ∈ db.sshKeys, k.user = key.user → k.fingerprint ≠ key.fingerprint)
      (hA : A key.user) :
      Aside A now db (KeyApi.assignSshKeyPerms { key with id := db.sshKeys.fresh }
        { db with sshKeys := db.sshKeys.create fun id => { key with id := id } })
  | saveKey {key key' : SSHKey} (hkey : key ∈ db.sshKeys) (hsaved : KeySaved now key key')
      (hA : A key.user) : Aside A now db { db with sshKeys := db.sshKeys.save key' }
  | revokeKeys {q : SSHKey → Bool} (hA : ∀ k ∈ db.sshKeys, q k = true → A k.user) :
      Aside A now db { db with sshKeys := db.sshKeys.update q (revokedKey now) }
  | assignOwner {u : UserId} {p : Perm} {o : Nat} (hp : OwnerPerm p)
      (howner : Owns db u (permModel p) o) (hA : ¬ A u → Active db u) :
      Aside A now db (assignPerm ⟨u, p, o⟩ db)
  | login {user : UserId} (hA : A user) : Aside A now db (ErasureRun.login user now db)
  | insertErasure {mk : Nat → ErasureRequest} (hid : ∀ n, (mk n).id = n)
      (hA : A (mk db.erasureRequests.fresh).user) :
      Aside A now db { db with erasureRequests := db.erasureRequests.create mk }

/-- One write at `now`, to what users of `A` have. -/
inductive Write (A : UserId → Prop) (now : Instant) (db : Db) : Db → Prop
  | aside {db' : Db} (h : Aside A now db db') : Write A now db db'
  | insertRequest {mk : Nat → AccessRequest} (hid : ∀ n, (mk n).id = n) {r : AccessRequest}
      (hr : mk db.accessRequests.fresh = r) (hrequested : r.requestedAt = now)
      (hstatus : r.status = .pending) (hdecidedAt : r.decidedAt = none)
      (hdecidedBy : r.decidedBy = none) (hA : A r.requester) :
      Write A now db (assignPerm ⟨r.requester, .changeAccessrequest, r.id⟩
        (assignPerm ⟨r.requester, .viewAccessrequest, r.id⟩
          { db with accessRequests := db.accessRequests.create mk }))
  | saveRequest {row r : AccessRequest} (hrow : row ∈ db.accessRequests)
      (hsaved : RequestSaved now row r) (hA : A row.requester) :
      Write A now db { db with accessRequests := db.accessRequests.save r }
  | expireRequest {r : AccessRequest} (hr : r ∈ db.accessRequests)
      (hexp : Access.isExpiring now r = true) (hA : A r.requester) :
      Write A now db { db with
        accessRequests := db.accessRequests.update (fun o => o.id = r.id) (Access.markExpired now) }
  | redactRequests {user : UserId} (hA : A user) :
      Write A now db { db with
        accessRequests := db.accessRequests.update (fun r => r.requester = user) redacted }
  | revokeRequests {user : UserId} (hA : A user) (adminUser : UserId) :
      Write A now db { db with
        accessRequests := db.accessRequests.update (isOpen user) (revokedRequest adminUser now) }
  | grant {p : UserObjectPermission} (hp : ¬ OwnerPerm p.permission) (hA : A p.user) :
      Write A now db (assignPerm p db)
  | withdraw {p : UserObjectPermission} (hp : ¬ OwnerPerm p.permission) (hA : A p.user) :
      Write A now db (removePerm p db)
  | anonymize {user : UserId} (hA : A user) (token : List Char) :
      Write A now db { db with
        users := db.users.update (fun u => u.id = user) (anonymous token)
        userObjectPermissions := db.userObjectPermissions.filter fun p => p.user ≠ user }
  | process {id : Nat} (hA : ∀ e ∈ db.erasureRequests, e.id = id → A e.user) (adminUser : UserId)
      (reason : List Char) :
      Write A now db { db with
        erasureRequests := db.erasureRequests.update (fun e => e.id = id)
          (processed adminUser reason now) }

/-- Writes one after the other. -/
abbrev AsideChain (A : UserId → Prop) (now : Instant) : Db → Db → Prop := ReflTransGen (Aside A now)

abbrev Chain (A : UserId → Prop) (now : Instant) : Db → Db → Prop := ReflTransGen (Write A now)

section Calls

variable {A : UserId → Prop} {now : Instant} {db : Db} {α β : Type}

theorem Aside.chain {db' : Db} (h : Aside A now db db') : AsideChain A now db db' := .single h

theorem Write.chain {db' : Db} (h : Write A now db db') : Chain A now db db' := .single h

theorem AsideChain.chain {db' : Db} (h : AsideChain A now db db') : Chain A now db db' :=
  ReflTransGen.mono (fun _ _ => Write.aside) _ _ h

variable {R : Db → Db → Prop}

theorem chain_bind {c : Call α} {next : α → Call β} (hc : ReflTransGen R db (c db).2)
    (hnext : ∀ a db', c db = (.ok a, db') → ReflTransGen R db' (next a db').2) :
    ReflTransGen R db ((c.bind next) db).2 := by
  unfold Call.bind
  rcases heq : c db with ⟨e | a, db'⟩
  · rw [heq] at hc
    exact hc
  · rw [heq] at hc
    exact hc.trans (hnext a db' heq)

theorem chain_atomic {c : Call α} (hc : ReflTransGen R db (c db).2) :
    ReflTransGen R db (c.atomic db).2 := by
  unfold Call.atomic
  rcases heq : c db with ⟨e | a, db'⟩
  · exact .refl
  · rw [heq] at hc
    exact hc

/-! ## Keys -/

theorem owns_of_mem {k : SSHKey} (hk : k ∈ db.sshKeys) : Owns db k.user .sshkey k.id :=
  ⟨k, hk, rfl, rfl⟩

theorem Owns.user {u v : UserId} {m : ObjectModel} {o : Nat} (hu : Owns db u m o)
    (hv : Owns db v m o) : u = v := by
  cases m with
  | server => exact hu.elim
  | sshkey =>
    obtain ⟨k, hk, hid, rfl⟩ := hu
    obtain ⟨k', hk', hid', rfl⟩ := hv
    rw [Table.eq_of_key _ hk hk' (hid.trans hid'.symm)]
  | accessrequest =>
    obtain ⟨r, hr, hid, rfl⟩ := hu
    obtain ⟨r', hr', hid', rfl⟩ := hv
    rw [Table.eq_of_key _ hr hr' (hid.trans hid'.symm)]

theorem issue_chain (key : SSHKey) (howner : Owns db key.user .sshkey key.id) (hA : A key.user)
    (env : Env) (createdBy : Option UserId) :
    AsideChain A now db (issueCertificateForKey env key createdBy db).2 := by
  obtain ⟨t, ⟨e, he⟩ | ⟨cert, hkey, huser, _, _, he⟩⟩ := issueCertificateForKey_cases env key createdBy db
  · rw [he]
    exact (Aside.authorities t).chain
  · rw [he]
    refine (Aside.authorities t).chain.tail (.certify ?_ ?_)
    · rw [hkey, huser]
      exact howner
    · rw [huser]
      exact hA

theorem revoke_chain {env : Env} (key : SSHKey) (howner : Owns db key.user .sshkey key.id)
    (hA : A key.user) : AsideChain A env.now db (revokeCertificateForKey env key db).2 := by
  unfold revokeCertificateForKey
  split
  · exact .refl
  · split
    · refine (Aside.revokeCertificates fun c _ hq hc => ?_).chain
      rw [show c.key = key.id from of_decide_eq_true hq] at hc
      rw [hc.user howner]
      exact hA
    · exact .refl

theorem saveKey_chain {env : Env} {key key' : SSHKey} (hkey : key ∈ db.sshKeys)
    (hsaved : KeySaved env.now key key') (hA : A key.user) :
    AsideChain A env.now db (KeyApi.saveKey env key' db).2 := by
  unfold KeyApi.saveKey
  split
  · exact (Aside.saveKey hkey hsaved hA).chain
  · exact .refl

theorem setPublicKey_frame {sha256 : List Nat → List Nat} {publicKey : List Char} {key key' : SSHKey}
    (h : setPublicKey sha256 publicKey key = .ok key') : ∃ keyType fingerprint line, key' =
      { key with keyType := keyType, fingerprint := fingerprint, publicKey := line } := by
  unfold setPublicKey at h
  split at h
  · cases h
  · cases h
    exact ⟨_, _, _, rfl⟩

/-- A key that is new is inserted and then certified. -/
theorem insertKey_chain {env : Env} {owner : UserId} {name publicKey : List Char} {key : SSHKey}
    (hset : setPublicKey env.sha256 publicKey (KeyApi.newKey env owner name) = .ok key) (hA : A owner)
    {createdBy : Option UserId} {next : SSHKey → Call β}
    (hnext : ∀ k db, (next k db).2 = (issueCertificateForKey env k createdBy db).2) :
    AsideChain A env.now db (((KeyApi.insertKey env key).bind next) db).2 := by
  obtain ⟨keyType, fingerprint, line, rfl⟩ := setPublicKey_frame hset
  refine chain_bind ?_ fun k db' heq => ?_
  · unfold KeyApi.insertKey
    split
    · exact .refl
    · split
      · exact .refl
      · next hdup =>
        refine Aside.chain (.insertKey ?_ ?_ ?_ (fun k hk huser hfp => hdup ?_) ?_)
        · rfl
        · rfl
        · rfl
        · rw [Table.any_iff]
          exact ⟨k, hk, by simp [huser, hfp]⟩
        · exact hA
  · rw [hnext]
    unfold KeyApi.insertKey at heq
    split at heq
    · cases heq
    · split at heq
      · cases heq
      · cases heq
        exact issue_chain _ ⟨_, (Table.mem_create _ _ (fun _ => rfl) _).mpr (.inr rfl), rfl, rfl⟩
          hA env createdBy

theorem createKey_chain {env : Env} {caller : Caller} {payload : KeyApi.KeyCreateIn}
    (hA : caller.isAuthenticated = true → ∀ owner,
      KeyApi.keyOwner caller payload.userId db = .ok owner → A owner) :
    AsideChain A env.now db (KeyApi.createKey env caller payload db).2 := by
  unfold KeyApi.createKey
  split
  · exact .refl
  · next hauth =>
    split
    · exact .refl
    split
    · exact .refl
    · next owner howner =>
      simp only
      split
      · exact .refl
      split
      · exact .refl
      · next key hset =>
        exact chain_atomic (insertKey_chain hset (hA (by simpa using hauth) owner howner)
          fun k db => rfl)

theorem issueCertificate_chain {env : Env} {caller : Caller} {keyId : Nat}
    (hA : ∀ key, KeyApi.findKey caller .viewSshkey keyId db = .ok key → A key.user) :
    AsideChain A env.now db (KeyApi.issueCertificate env caller keyId db).2 := by
  unfold KeyApi.issueCertificate
  split
  · exact .refl
  · next key hf => exact issue_chain key (owns_of_mem (KeyRun.findKey_ok hf)) (hA key hf) env _

theorem downloaded_chain {env : Env} {caller : Caller} {keyId : Nat}
    (hA : ∀ key, KeyApi.findKey caller .viewSshkey keyId db = .ok key → A key.user) :
    AsideChain A env.now db (KeyApi.downloaded env caller keyId db).2 := by
  unfold KeyApi.downloaded
  split
  · exact .refl
  · next key hf =>
    have howner := owns_of_mem (KeyRun.findKey_ok hf)
    rw [Call.map_db]
    unfold KeyApi.ensureCertificate
    split
    · exact .refl
    split
    · exact issue_chain key howner (hA key hf) env _
    · split
      · exact issue_chain key howner (hA key hf) env _
      · exact .refl

theorem updateKey_chain {env : Env} {caller : Caller} {keyId : Nat} {payload : KeyApi.KeyUpdateIn}
    (hA : ∀ key, KeyApi.findKey caller .changeSshkey keyId db = .ok key → A key.user) :
    AsideChain A env.now db (KeyApi.updateKey env caller keyId payload db).2 := by
  obtain hsame | ⟨key, n, hf, _, hcase⟩ := KeyRun.updateKey_cases env caller keyId payload db
  · rw [hsame]
  · have hkey := KeyRun.findKey_ok hf
    have howner := owns_of_mem hkey
    have hkeyA := hA key hf
    obtain heq | ⟨_, heq⟩ | heq := hcase
    · rw [heq]
      exact saveKey_chain hkey ⟨⟨n, _, _, rfl⟩, .inl ⟨rfl, rfl⟩⟩ hkeyA
    · rw [heq]
      let k : SSHKey := { key with name := n, isActive := true, revokedAt := none }
      refine chain_bind (issue_chain k howner hkeyA env _) fun _ db' hissue => ?_
      have hkeys := issueCertificateForKey_sshKeys env k (some caller.id) db
      rw [Call.mapError_ok hissue] at hkeys
      exact saveKey_chain (hkeys ▸ hkey : key ∈ db'.sshKeys)
        ⟨⟨n, true, none, rfl⟩, .inr (.inl ⟨rfl, rfl⟩)⟩ hkeyA
    · rw [heq]
      let k : SSHKey := { key with name := n, isActive := false, revokedAt := some env.now }
      refine chain_bind (revoke_chain k howner hkeyA) fun _ db' hrevoke => ?_
      have hkeys := revokeCertificateForKey_sshKeys env k db
      rw [hrevoke] at hkeys
      exact saveKey_chain (hkeys ▸ hkey : key ∈ db'.sshKeys)
        ⟨⟨n, false, some env.now, rfl⟩, .inr (.inr ⟨rfl, rfl⟩)⟩ hkeyA

theorem deleteKey_chain {env : Env} {caller : Caller} {keyId : Nat}
    (hA : ∀ key, KeyApi.findKey caller .deleteSshkey keyId db = .ok key → A key.user) :
    AsideChain A env.now db (KeyApi.deleteKey env caller keyId db).2 := by
  obtain hsame | ⟨key, hf, heq⟩ := KeyRun.deleteKey_cases env caller keyId db
  · rw [hsame]
  · have hkey := KeyRun.findKey_ok hf
    have hkeyA := hA key hf
    rw [heq]
    refine .trans (Aside.chain (.revokeKeys fun k hk hq => ?_)) (revoke_chain key ?_ hkeyA)
    · rw [Table.eq_of_key _ hk hkey (of_decide_eq_true hq)]
      exact hkeyA
    · have hsame : Table.Extends (fun k : SSHKey => (k.id, k.user)) (fun _ => False) db.sshKeys
          (db.sshKeys.update (fun k => k.id = key.id) (revokedKey env.now)) :=
        Table.extends_update _ _ fun _ => rfl
      obtain ⟨k, hk, heq⟩ := hsame.kept key hkey
      exact ⟨k, hk, congrArg Prod.fst heq, congrArg Prod.snd heq⟩

/-! ## The profile page -/

theorem profile_chain {env : Env} {caller : Caller} (hA : caller.isAuthenticated = true → A caller.id)
    (form : Profile.ProfileForm) : AsideChain A env.now db (Profile.profile env caller form db).2 := by
  unfold Profile.profile
  split
  · exact .refl
  · next hauth =>
    have hcaller : A caller.id := hA (by simpa using hauth)
    have hadd : ∀ name publicKey,
        AsideChain A env.now db (Profile.addKey env caller name publicKey db).2 := by
      intro name publicKey
      unfold Profile.addKey
      split
      · exact .refl
      · next key hset => exact insertKey_chain hset hcaller fun k db => rfl
    cases form with
    | sshKey name publicKey =>
      simp only [Profile.postKey]
      split
      · next name' publicKey' _ _ =>
        specialize hadd (strip isSpace name') (strip isSpace publicKey')
        split
        · split
          · next heq => rwa [heq] at hadd
          · next heq => rwa [heq] at hadd
        · exact .refl
      · exact .refl
    | erasure reason =>
      simp only [Profile.postErasure]
      split
      · exact .refl
      · split
        · exact .refl
        · exact Aside.chain (.insertErasure (fun _ => rfl) hcaller)

/-! ## Access requests -/

theorem syncServerViewPerm_chain (t : Instant) {r : AccessRequest} (hA : A r.requester) :
    Chain A now db (Access.syncServerViewPerm t r db) := by
  have hview : ¬ OwnerPerm (Access.viewPerm r).permission := show ¬ OwnerPerm .viewServer by decide
  unfold Access.syncServerViewPerm
  split
  · exact Write.chain (.grant hview hA)
  · exact Write.chain (.withdraw hview hA)

theorem createRequest_chain {cfg : Settings} {caller : Caller}
    {payload : Access.AccessRequestCreateIn} {db' : Db} {r : AccessRequest}
    (hA : caller.isAuthenticated = true → A caller.id)
    (h : Access.createRequest cfg caller now payload db = .ok (r, db')) : Chain A now db db' := by
  obtain ⟨hauth, rfl, rfl⟩ := Access.createRequest_ok h
  simp only [Access.assignAccessRequestPerms, if_true]
  refine .trans (Write.chain (.insertRequest (fun _ => rfl) rfl rfl rfl rfl rfl ?_))
    (syncServerViewPerm_chain now ?_)
  · exact hA hauth
  · exact hA hauth

theorem adminStatus_mem {v : String} {s : Status} (h : Access.adminStatus v = some s) :
    s ∈ [Status.approved, .denied, .revoked, .cancelled] := List.mem_of_find?_eq_some h

theorem applyUpdate_saved {cfg : Settings} {caller : Caller} {payload : Access.AccessRequestUpdateIn}
    {row r : AccessRequest} (h : Access.applyUpdate cfg caller now payload row = .ok r) :
    RequestSaved now row r := by
  obtain ⟨q, hq, hr⟩ := Access.applyUpdate_ok h
  obtain ⟨expiresAt, rfl⟩ : ∃ expiresAt, q = { row with expiresAt := expiresAt } := by
    obtain ⟨_, rfl⟩ | ⟨d, _, _, rfl⟩ := Access.setExpiry_ok hq
    · exact ⟨q.expiresAt, rfl⟩
    · exact ⟨_, rfl⟩
  obtain ⟨_, rfl⟩ | ⟨_, v, s, _, hs, rfl⟩ | ⟨_, _, hpending, rfl⟩ := Access.setStatus_ok hr
  · exact ⟨⟨_, _, expiresAt, _, rfl⟩, .inl ⟨rfl, rfl, rfl⟩⟩
  · exact ⟨⟨_, _, expiresAt, _, rfl⟩, .inr (.inl ⟨⟨_, rfl⟩, rfl, adminStatus_mem hs⟩)⟩
  · exact ⟨⟨_, _, expiresAt, _, rfl⟩, .inr (.inr ⟨hpending, rfl, rfl, rfl⟩)⟩

theorem updateRequest_chain {cfg : Settings} {caller : Caller} {requestId : Nat}
    {payload : Access.AccessRequestUpdateIn} {db' : Db} {r : AccessRequest}
    (hA : ∀ row ∈ db.accessRequests, row.id = requestId → caller.isAuthenticated = true →
      caller.hasObjectPerm .changeAccessrequest row.id = true → A row.requester)
    (h : Access.updateRequest cfg caller now requestId payload db = .ok (r, db')) :
    Chain A now db db' := by
  have hauth : caller.isAuthenticated = true := by
    cases hc : caller.isAuthenticated with
    | true => rfl
    | false => simp [Access.updateRequest, hc] at h
  obtain ⟨row, hrow, hid, happly, rfl⟩ := Access.updateRequest_ok h
  have hperm : caller.hasObjectPerm .changeAccessrequest row.id = true := by
    unfold Access.applyUpdate at happly
    split at happly
    · cases happly
    · next hperm => simpa using hperm
  have hrowA := hA row hrow hid hauth hperm
  have hrA : A r.requester := (Access.applyUpdate_frame happly).2.1 ▸ hrowA
  refine .trans (Write.chain (.saveRequest hrow (applyUpdate_saved happly) hrowA)) ?_
  exact .trans (syncServerViewPerm_chain now hrA) (syncServerViewPerm_chain now hrA)

theorem expireOne_chain {r : AccessRequest} (hr : r ∈ db.accessRequests)
    (hexp : Access.isExpiring now r = true) (hA : A r.requester) :
    Chain A now db (Access.expireOne now db r) :=
  .trans (Write.chain (.expireRequest hr hexp hA))
    (.trans (syncServerViewPerm_chain now hA) (syncServerViewPerm_chain now hA))

/-- The rows are expired one by one, each as it was selected. -/
theorem foldl_expireOne_chain {l : List AccessRequest} (hnodup : (l.map AccessRequest.id).Nodup)
    (hrows : ∀ r ∈ l, r ∈ db.accessRequests ∧ Access.isExpiring now r = true ∧ A r.requester) :
    Chain A now db (l.foldl (Access.expireOne now) db) := by
  induction l generalizing db with
  | nil => exact .refl
  | cons r l ih =>
    obtain ⟨hr, hexp, hA⟩ := hrows r List.mem_cons_self
    rw [List.map_cons, List.nodup_cons] at hnodup
    refine .trans (expireOne_chain hr hexp hA) (ih hnodup.2 fun q hq => ?_)
    obtain ⟨hmem, hq'⟩ := hrows q (List.mem_cons_of_mem _ hq)
    refine ⟨?_, hq'⟩
    obtain ⟨p, hp⟩ := Access.expireOne_frame now db r
    have hne : q.id ≠ r.id := fun hid => hnodup.1 (hid ▸ List.mem_map_of_mem hq)
    rw [hp]
    exact (Table.mem_update _ _ _ _).mpr ⟨q, hmem, by simp [hne]⟩

theorem expireAccessRequests_chain (hA : ∀ r ∈ db.accessRequests,
    Access.isExpiring now r = true → A r.requester) :
    Chain A now db (Access.expireAccessRequests now db).2 := by
  refine foldl_expireOne_chain ?_ fun r hr => ?_
  · have hperm := List.perm_insertionSort (fun a b : AccessRequest => b.requestedAt ≤ a.requestedAt)
      (db.accessRequests.filter (Access.isExpiring now))
    refine (hperm.map AccessRequest.id).nodup_iff.mpr ?_
    exact db.accessRequests.nodup.sublist (List.filter_sublist.map _)
  · obtain ⟨hmem, hexp⟩ := (AccessRun.mem_expiring now db r).mp hr
    exact ⟨hmem, hexp, hA r hmem hexp⟩

/-! ## Erasures -/

theorem anonymizeUser_chain {user : UserId} (hA : A user) (adminUser : UserId) (token : List Char) :
    Chain A now db (anonymizeUser adminUser token now user db) := by
  refine .trans (Write.chain (.anonymize hA token)) <|
    .trans (Write.chain (.aside (.revokeKeys fun k _ hq => ?_))) <|
    .trans (Write.chain (.aside (.revokeCertificates fun c _ hq _ => ?_))) <|
    .trans (Write.chain (.redactRequests hA)) (Write.chain (.revokeRequests hA adminUser))
  · rw [Bool.and_eq_true, decide_eq_true_eq] at hq
    exact hq.1 ▸ hA
  · rw [Bool.and_eq_true, decide_eq_true_eq] at hq
    exact hq.1 ▸ hA

theorem process_chain {self : ErasureRequest} (hA : A self.user)
    (hrow : ∀ e ∈ db.erasureRequests, e.id = self.id → A e.user) (adminUser : UserId)
    (reason token : List Char) :
    Chain A now db (process self adminUser reason token now db).2 := by
  unfold process
  split
  · exact .refl
  · refine .trans (anonymizeUser_chain hA adminUser token) (Write.chain ?_)
    exact @Write.process A now (anonymizeUser adminUser token now self.user db) _ hrow adminUser reason

end Calls

/-! ## The command `sync_object_perms` -/

section Command

variable {A : UserId → Prop} {now : Instant}

/-- Rows of one table after another, none of which changes the tables. -/
theorem chain_foldl (A : UserId → Prop) (now : Instant) {α : Type} (f : Site → α → Site)
    (l : List α) (site : Site) (h : ∀ site', SamePerms site site' → ∀ a ∈ l,
      SamePerms site' (f site' a) ∧ AsideChain A now site'.toDb (f site' a).toDb) :
    SamePerms site (l.foldl f site) ∧ AsideChain A now site.toDb (l.foldl f site).toDb := by
  induction l generalizing site with
  | nil => exact ⟨SamePerms.refl site, .refl⟩
  | cons a l ih =>
    obtain ⟨hsame, hchain⟩ := h site (SamePerms.refl site) a List.mem_cons_self
    obtain ⟨hsame', hchain'⟩ := ih (f site a) fun site' hs b hb =>
      h site' (hsame.trans hs) b (List.mem_cons_of_mem _ hb)
    exact ⟨hsame.trans hsame', hchain.trans hchain'⟩

theorem syncAccessRequest_chain {site : Site} {r : AccessRequest} (hr : r ∈ site.accessRequests)
    (hA : ¬ A r.requester → Active site.toDb r.requester) :
    AsideChain A now site.toDb (syncAccessRequest site r).toDb := by
  rw [syncAccessRequest, assignDefaultObjectPermissions_eq]
  have howner : Owns site.toDb r.requester .accessrequest r.id := ⟨r, hr, rfl, rfl⟩
  exact .trans (Aside.chain (.assignOwner (p := .viewAccessrequest) (by decide) howner hA))
    (Aside.chain (.assignOwner (p := .changeAccessrequest) (by decide) howner hA))

theorem syncKey_chain {site : Site} {key : SSHKey} (hkey : key ∈ site.sshKeys)
    (hA : ¬ A key.user → Active site.toDb key.user) :
    AsideChain A now site.toDb (syncKey site key).toDb := by
  rw [syncKey, assignDefaultObjectPermissions_eq]
  have howner := owns_of_mem hkey
  exact .trans (.trans (Aside.chain (.assignOwner (p := .viewSshkey) (by decide) howner hA))
    (Aside.chain (.assignOwner (p := .changeSshkey) (by decide) howner hA)))
    (Aside.chain (.assignOwner (p := .deleteSshkey) (by decide) howner hA))

/-- The command gives back what an erasure took. -/
theorem syncObjectPerms_chain (site : Site) :
    AsideChain (fun u => ¬ Active site.toDb u) now site.toDb (syncObjectPerms site).toDb := by
  let A : UserId → Prop := fun u => ¬ Active site.toDb u
  have hactive : ∀ {q : Site}, SamePerms site q → ∀ u, ¬ A u → Active q.toDb u := by
    rintro _ ⟨p, rfl⟩ u hu
    exact not_not.mp hu
  obtain ⟨hsame, hrequests⟩ := chain_foldl A now syncAccessRequest site.accessRequests.toList site
    fun q hq r hr => by
      refine ⟨⟨_, assignDefaultObjectPermissions_eq _ _ _⟩, syncAccessRequest_chain ?_ (hactive hq _)⟩
      obtain ⟨p, rfl⟩ := hq
      exact hr
  obtain ⟨_, hkeys⟩ := chain_foldl A now syncKey
    (site.accessRequests.toList.foldl syncAccessRequest site).sshKeys.toList _
    fun q hq key hkey => by
      refine ⟨⟨_, assignDefaultObjectPermissions_eq _ _ _⟩,
        syncKey_chain ?_ (hactive (hsame.trans hq) _)⟩
      obtain ⟨p, rfl⟩ := hq
      exact hkey
  refine .trans (.trans hrequests hkeys) (chain_foldl A now _ _ _ fun q _ server _ => ?_).2
  rw [syncServer, assignDefaultObjectPermissions_eq]
  exact ⟨SamePerms.refl q, .refl⟩

end Command

/-! ## Steps -/

/-- Whom an event touches: the caller, the owner of the object that the caller has a
permission on, the user it is about. -/
def Touched (site : Site) (u : UserId) : Event → Prop
  | .access _ now op =>
    match op with
    | .createRequest caller _ => caller.isAuthenticated = true ∧ caller.id = u
    | .updateRequest caller id _ => ∃ r ∈ site.accessRequests, r.id = id ∧ r.requester = u ∧
        caller.isAuthenticated = true ∧ caller.hasObjectPerm .changeAccessrequest r.id = true
    | .expireAccessRequests => ∃ r ∈ site.accessRequests, r.requester = u ∧
        Access.isExpiring now r = true
    | .process self .. => Erases self
  | .keys e =>
    match e.op with
    | .createKey caller payload => caller.isAuthenticated = true ∧
        KeyApi.keyOwner caller payload.userId site.toDb = .ok u
    | .issueCertificate caller keyId | .downloadCertificate caller keyId
    | .downloadCertificateHash caller keyId => Reaches caller .viewSshkey keyId
    | .updateKey caller keyId _ => Reaches caller .changeSshkey keyId
    | .deleteKey caller keyId => Reaches caller .deleteSshkey keyId
    | .process self .. => Erases self
  | .profile _ caller _ => caller.isAuthenticated = true ∧ caller.id = u
  | .login user _ => user = u
  | .syncObjectPerms => ¬ Active site.toDb u
  | .connect .. | .syncReport .. => False
where
  Reaches (caller : Caller) (p : Perm) (keyId : Nat) : Prop :=
    ∃ key, KeyApi.findKey caller p keyId site.toDb = .ok key ∧ key.user = u
  Erases (self : ErasureRequest) : Prop :=
    self.user = u ∨ ∃ e ∈ site.erasureRequests, e.id = self.id ∧ e.user = u

/-- The clock of the call. -/
def clock : Event → Instant
  | .access _ now _ | .login _ now | .syncReport now _ _ => now
  | .keys e => e.env.now
  | .profile env _ _ | .connect env _ _ _ => env.now
  | .syncObjectPerms => 0

/-- The event is none of a request for access and none of an erasure. -/
def IsAside : Event → Prop
  | .access .. => False
  | .keys e =>
    match e.op with
    | .process .. => False
    | _ => True
  | _ => True

/-- A step is a chain of writes to what these users have. -/
theorem step_aside {site : Site} {e : Event} (h : IsAside e) :
    AsideChain (fun u => Touched site u e) (clock e) site.toDb (step site e).toDb := by
  cases e with
  | access cfg now op => exact h.elim
  | keys e =>
    obtain ⟨env, op⟩ := e
    cases op with
    | createKey caller payload =>
      exact createKey_chain fun hauth owner howner => ⟨hauth, howner⟩
    | issueCertificate caller keyId => exact issueCertificate_chain fun key hf => ⟨key, hf, rfl⟩
    | downloadCertificate caller keyId => exact downloaded_chain fun key hf => ⟨key, hf, rfl⟩
    | downloadCertificateHash caller keyId => exact downloaded_chain fun key hf => ⟨key, hf, rfl⟩
    | updateKey caller keyId payload => exact updateKey_chain fun key hf => ⟨key, hf, rfl⟩
    | deleteKey caller keyId => exact deleteKey_chain fun key hf => ⟨key, hf, rfl⟩
    | process self adminUser reason token => exact h.elim
  | profile env caller form => exact profile_chain (fun hauth => ⟨hauth, rfl⟩) form
  | connect env sessionKey caller serverId =>
    obtain ⟨t, ht⟩ := connect_frame env sessionKey caller serverId site.toDb
    simp only [step, over_toDb, ht]
    exact Aside.chain (.authorities t)
  | login user now => exact Aside.chain (.login rfl)
  | syncObjectPerms => exact syncObjectPerms_chain site
  | syncReport now serverId payload =>
    obtain ⟨t, ht⟩ := ServerAccounts.syncReport_frame now serverId payload site.toDb
    simp only [step, over_toDb, ht]
    exact Aside.chain (.accounts t)

theorem step_chain (site : Site) (e : Event) :
    Chain (fun u => Touched site u e) (clock e) site.toDb (step site e).toDb := by
  cases e with
  | access cfg now op =>
    cases op with
    | createRequest caller payload =>
      simp only [step, over_toDb, AccessRun.apply]
      split
      · next h => exact createRequest_chain (fun hauth => ⟨hauth, rfl⟩) h
      · exact .refl
    | updateRequest caller id payload =>
      simp only [step, over_toDb, AccessRun.apply]
      split
      · next h =>
        exact updateRequest_chain
          (fun row hrow hid hauth hperm => ⟨row, hrow, hid, rfl, hauth, hperm⟩) h
      · exact .refl
    | expireAccessRequests =>
      exact expireAccessRequests_chain fun r hr hexp => ⟨r, hr, rfl, hexp⟩
    | process self adminUser reason token =>
      exact process_chain (.inl rfl) (fun e he hid => .inr ⟨e, he, hid, rfl⟩) adminUser reason token
  | keys e =>
    obtain ⟨env, op⟩ := e
    cases op with
    | process self adminUser reason token =>
      exact process_chain (.inl rfl) (fun e he hid => .inr ⟨e, he, hid, rfl⟩) adminUser reason token
    | _ => exact AsideChain.chain (by exact step_aside trivial)
  | _ => exact AsideChain.chain (by exact step_aside trivial)

theorem chain_preserves {A : UserId → Prop} {now : Instant} {I : Db → Prop}
    (hwrite : ∀ db db', Write A now db db' → I db → I db') {db db' : Db} (h : Chain A now db db')
    (hdb : I db) : I db' := by
  induction h with
  | refl => exact hdb
  | tail _ hw ih => exact hwrite _ _ hw ih

/-- What every write preserves holds in every state of a run. -/
theorem run_writes {I : Db → Prop}
    (hwrite : ∀ A now db db', Write A now db db' → I db → I db') {site : Site} (h : I site.toDb)
    (events : List Event) : I (run step site events).toDb :=
  run_preserves (I := fun site : Site => I site.toDb)
    (fun site e hs => chain_preserves (hwrite _ _) (step_chain site e) hs) h events

end Keywarden.Writes

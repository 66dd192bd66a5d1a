import Keywarden.AuthorityAgreement
import Keywarden.CertificateRun

/-!
# The authority behind a certificate

A server trusts the authority that `ssh_ca` names: the one in use when the server asks. A
valid certificate is handed out again although another authority has come into use since
it was signed.
-/
namespace Keywarden.CertificateAuthority

open Rows Text Transitions Keys Username Authorization CertificateRun
open AuthoritySteps (deactivated latestCa_some)
open AuthorityAgreement (secondEnv)
open KeyApi (downloadCertificate)

/-- Some stored authority has the public key and signed the certificate. -/
def SignedUnder (body : SignedCertificate) (out : SshCaOut) (db : Db) : Prop :=
  ∃ ca ∈ db.certificateAuthorities, ca.publicKey = out.publicKey ∧ SignedBy body ca

/-- The certificate that is handed out again was issued while the authority was in use
that is in use now. -/
def KeepsAuthority (env : Env) (w : World) (key : Nat) : Prop :=
  ∀ c, cached env key w.site.toDb = some c →
    (w.issues key).authority = (latestCa w.site.toDb).map SSHCertificateAuthority.id

/-- Two stored authorities have not got one public key. -/
def Distinct (db : Db) : Prop :=
  ∀ a ∈ db.certificateAuthorities, ∀ b ∈ db.certificateAuthorities, a.publicKey ≠ [] →
    b.publicKey ≠ [] → strip isSpace a.publicKey = strip isSpace b.publicKey → a.id = b.id

/-- `ssh-keygen` makes a key that is not stored yet. -/
def FreshKey (env : Env) (db : Db) : Prop :=
  ∀ privateKey file, env.keygen = .ok (privateKey, file) →
    ∀ ca ∈ db.certificateAuthorities, ca.publicKey ≠ [] →
      strip isSpace ca.publicKey ≠ strip isSpace file

def FreshKeys (w : World) (e : Event) : Prop := ∀ env, e.env = some env → FreshKey env w.site.toDb

/-! ## Public keys stay distinct -/

/-- Where the public key of an authority comes from. -/
theorem getActiveCa_origin (env : Env) (createdBy : Option UserId) {db : Db}
    {ca : SSHCertificateAuthority} (hca : ca ∈ (getActiveCa env createdBy db).2.certificateAuthorities) :
    (∃ o ∈ db.certificateAuthorities, o.id = ca.id ∧ o.publicKey = ca.publicKey) ∨
      ((latestCa db).getD (newCa env createdBy db.certificateAuthorities.fresh)).id = ca.id ∧
        ∃ privateKey file, env.keygen = .ok (privateKey, file) ∧ ca.publicKey = strip isSpace file := by
  obtain ⟨e, he⟩ | ⟨old, ca', hready, he⟩ := getActiveCa_cases env createdBy db
  · rw [he] at hca
    exact .inl ⟨ca, hca, rfl, rfl⟩
  · rw [he] at hca
    obtain rfl | ⟨hca, _⟩ := (Table.mem_upsert _ _ _).mp hca
    · have hold := hready.inUse
      obtain ⟨hmat, _, hsame⟩ | ⟨_, file, hgen, hsame⟩ := hready.material
      · left
        cases hlatest : latestCa db with
        | none =>
          rw [hold, hlatest] at hmat
          exact absurd rfl hmat.1
        | some r =>
          rw [hlatest, Option.getD_some] at hold
          exact ⟨old, hold ▸ (latestCa_some hlatest).1, hready.id.symm, hsame.symm⟩
      · exact .inr ⟨hold ▸ hready.id.symm, _, file, hgen, hsame⟩
    · exact .inl ⟨ca, hca, rfl, rfl⟩

/-- Every public key is one that was stored before. -/
theorem distinct_of_origin {db db' : Db} (h : Distinct db)
    (horigin : ∀ ca ∈ db'.certificateAuthorities, ca.publicKey ≠ [] →
      ∃ o ∈ db.certificateAuthorities, o.id = ca.id ∧ o.publicKey = ca.publicKey) : Distinct db' := by
  intro a ha b hb hpa hpb heq
  obtain ⟨oa, hoa, hida, hpuba⟩ := horigin a ha hpa
  obtain ⟨ob, hob, hidb, hpubb⟩ := horigin b hb hpb
  rw [← hida, ← hidb]
  rw [← hpuba] at hpa heq
  rw [← hpubb] at hpb heq
  exact h oa hoa ob hob hpa hpb heq

theorem distinct_getActiveCa {env : Env} (createdBy : Option UserId) {db : Db} (h : Distinct db)
    (hfresh : FreshKey env db) : Distinct (getActiveCa env createdBy db).2 := by
  have hnew : ∀ o ∈ db.certificateAuthorities, ∀ privateKey file, o.publicKey ≠ [] →
      env.keygen = .ok (privateKey, file) →
      strip isSpace o.publicKey ≠ strip isSpace (strip isSpace file) := by
    intro o ho privateKey file hpub hgen
    rw [strip_strip]
    exact hfresh privateKey file hgen o ho hpub
  intro a ha b hb hpa hpb heq
  obtain ⟨oa, hoa, hida, hpuba⟩ | ⟨hida, privateKey, file, hgen, hfile⟩ :=
    getActiveCa_origin env createdBy ha
  · obtain ⟨ob, hob, hidb, hpubb⟩ | ⟨_, privateKey, file, hgen, hfile⟩ :=
      getActiveCa_origin env createdBy hb
    · rw [← hida, ← hidb]
      rw [← hpuba] at hpa heq
      rw [← hpubb] at hpb heq
      exact h oa hoa ob hob hpa hpb heq
    · rw [← hpuba] at hpa heq
      rw [hfile] at heq
      exact absurd heq (hnew oa hoa privateKey file hpa hgen)
  · obtain ⟨ob, hob, _, hpubb⟩ | ⟨hidb, _⟩ := getActiveCa_origin env createdBy hb
    · rw [← hpubb] at hpb heq
      rw [hfile] at heq
      exact absurd heq.symm (hnew ob hob privateKey file hpb hgen)
    · exact hida.symm.trans hidb

theorem distinct_step {cfg : Settings} {T : CaseTable} (w : World) {e : Event} (he : Deployed cfg T e)
    (hfresh : FreshKeys w e) (h : Distinct w.site.toDb) : Distinct (step w e).site.toDb := by
  obtain hsame | ⟨env, createdBy, henv, hgot⟩ | ⟨name, isActive, createdBy, now, hadded⟩ | ⟨id, hoff⟩ :=
    (evolves_step w.site he).authorities
  · refine distinct_of_origin h fun ca hca _ => ⟨ca, ?_, rfl, rfl⟩
    exact hsame ▸ hca
  · have hdistinct := distinct_getActiveCa createdBy h (hfresh env henv)
    intro a ha b hb
    exact hdistinct a (hgot ▸ ha) b (hgot ▸ hb)
  · refine distinct_of_origin h fun ca hca hpub => ?_
    have hca' : ca ∈ w.site.certificateAuthorities.create (addedCa name isActive createdBy now) :=
      hadded ▸ hca
    obtain hold | rfl := (Table.mem_create _ _ (fun _ => rfl) ca).mp hca'
    · exact ⟨ca, hold, rfl, rfl⟩
    · exact absurd rfl hpub
  · refine distinct_of_origin h fun ca hca _ => ?_
    have hca' : ca ∈ w.site.certificateAuthorities.update (fun ca => ca.id = id) deactivated :=
      hoff ▸ hca
    obtain ⟨o, ho, rfl⟩ := (Table.mem_update _ _ _ _).mp hca'
    refine ⟨o, ho, ?_⟩
    split
    · exact ⟨rfl, rfl⟩
    · exact ⟨rfl, rfl⟩

/-! ## A poll -/

theorem sshCa_ok {env : Env} {serverId : Nat} {db db' : Db} {out : SshCaOut}
    (h : sshCa env serverId db = (.ok out, db')) :
    ∃ ca, getActiveCa env none db = (.ok ca, db') ∧ out.publicKey = ca.publicKey ∧
      ca.publicKey ≠ [] := by
  unfold sshCa at h
  split at h
  · cases h
  · split at h
    · cases h
    · next ca dbOut heq =>
      split at h
      · cases h
      · next hpub =>
        cases h
        exact ⟨ca, heq, rfl, hpub⟩

/-- The authority that a call gets is the one that was in use, or a new one. -/
theorem getActiveCa_ok {env : Env} {createdBy : Option UserId} {db db' : Db}
    {ca : SSHCertificateAuthority} (h : getActiveCa env createdBy db = (.ok ca, db')) :
    (∃ r, latestCa db = some r ∧ r.id = ca.id ∧ (HasMaterial r → r.privateKey = ca.privateKey ∧
        r.publicKey = ca.publicKey)) ∨
      (latestCa db = none ∧ ca.id = db.certificateAuthorities.fresh) := by
  obtain ⟨e, he⟩ | ⟨old, ca', hready, he⟩ := getActiveCa_cases env createdBy db
  · rw [he] at h
    cases h
  · rw [he] at h
    cases h
    have hold := hready.inUse
    cases hlatest : latestCa db with
    | none =>
      rw [hlatest, Option.getD_none] at hold
      exact .inr ⟨rfl, by rw [hready.id, hold]; rfl⟩
    | some r =>
      rw [hlatest, Option.getD_some] at hold
      subst hold
      refine .inl ⟨old, rfl, hready.id.symm, fun hmat => ?_⟩
      obtain ⟨_, hpriv, hpub⟩ | ⟨hno, _⟩ := hready.material
      · exact ⟨hpriv.symm, hpub.symm⟩
      · exact absurd hmat hno

/-- An authority in use with material is the one a poll names. -/
theorem signedUnder_of_latest {env : Env} {serverId : Nat} {db db' : Db} {out : SshCaOut}
    (h : sshCa env serverId db = (.ok out, db')) {ca : SSHCertificateAuthority}
    (hlatest : latestCa db = some ca) (hmat : HasMaterial ca) {body : SignedCertificate}
    (hsigned : SignedBy body ca) : SignedUnder body out db' := by
  obtain ⟨ca', hget, hout, _⟩ := sshCa_ok h
  have hca' := (latestCa_some (latestCa_getActiveCa hget)).1
  obtain ⟨r, hr, _, hkeys⟩ | ⟨hnone, _⟩ := getActiveCa_ok hget
  · obtain rfl : ca = r := Option.some.inj (hlatest.symm.trans hr)
    obtain ⟨hpriv, hpub⟩ := hkeys hmat
    refine ⟨ca', hca', hout.symm, ?_⟩
    rw [SignedBy, ← hpriv, ← hpub]
    exact hsigned
  · rw [hlatest] at hnone
    cases hnone

/-- While public keys are distinct, a stored authority that a poll names is in use. -/
theorem latest_of_signedUnder {env : Env} {serverId : Nat} {db db' : Db} {out : SshCaOut}
    (h : sshCa env serverId db = (.ok out, db')) (hdistinct : Distinct db')
    {ca : SSHCertificateAuthority} (hca : ca ∈ db.certificateAuthorities) (hmat : HasMaterial ca)
    {body : SignedCertificate} (hsigned : SignedBy body ca) (hunder : SignedUnder body out db') :
    (latestCa db).map SSHCertificateAuthority.id = some ca.id := by
  obtain ⟨named, hget, hout, hnamed⟩ := sshCa_ok h
  have hafter : db' = (getActiveCa env none db).2 := by rw [hget]
  have hmem := (latestCa_some (latestCa_getActiveCa hget)).1
  obtain ⟨kept, hkept, hid, _, hpub⟩ := getActiveCa_material env none hca hmat
  rw [← hafter] at hkept
  obtain ⟨r, _, hr, hrsigned⟩ := hunder
  have hsame : kept.id = named.id := by
    refine hdistinct kept hkept named hmem (hpub ▸ hmat.1) hnamed ?_
    rw [hpub, ← hsigned.2, hrsigned.2, hr, hout]
  obtain ⟨r, hlatest, hrid, _⟩ | ⟨_, hnew⟩ := getActiveCa_ok hget
  · rw [hlatest, Option.map_some, hrid, ← hsame, hid]
  · have hlt := Table.key_lt_fresh _ hca
    rw [← hnew, ← hsame, hid] at hlt
    exact absurd hlt (Nat.lt_irrefl _)

/-! ## Runs -/

theorem run_signed (site : Site) (events : List Event) (hsite : Distinct site.toDb)
    (hfresh : Along step FreshKeys (start site) events) :
    Signed (run step (start site) events) ∧ Distinct (run step (start site) events).site.toDb := by
  refine run_invariant (P := FreshKeys) (I := fun w => Signed w ∧ Distinct w.site.toDb) ?_ ?_ hfresh
  · intro w e ⟨hsigned, hdistinct⟩ hfresh
    obtain ⟨cfg, T, he⟩ : ∃ cfg T, Deployed cfg T e := by
      cases henv : e.env with
      | none => exact ⟨workingEnv.cfg, .keep, fun env h => by rw [henv] at h; cases h⟩
      | some env =>
        refine ⟨env.cfg, env.caseTable, fun env' h => ?_⟩
        rw [henv] at h
        cases h
        exact ⟨rfl, rfl⟩
    exact ⟨signed_step w he hsigned, distinct_step w he hfresh hdistinct⟩
  · exact ⟨fun c hc => absurd hc (Table.not_mem_empty c), hsite⟩

/-- In any state of any run, a certificate that is downloaded is signed by the authority
that the next poll names if and only if it is not a valid certificate from before another
authority has come into use. -/
theorem signedUnder_download_iff (site : Site) (events : List Event) (hsite : Distinct site.toDb)
    (hfresh : Along step FreshKeys (start site) events) {env env' : Env} {caller : Caller}
    {keyId serverId : Nat} {body : SignedCertificate} {filename : List Char} {out : SshCaOut}
    {db' db'' : Db}
    (hdownload : downloadCertificate env caller keyId (run step (start site) events).site.toDb =
      (.ok (body, filename), db'))
    (hpoll : sshCa env' serverId db' = (.ok out, db'')) (hpollFresh : FreshKey env' db') :
    SignedUnder body out db'' ↔ KeepsAuthority env (run step (start site) events) keyId := by
  obtain ⟨hsigned, hdistinct⟩ := run_signed site events hsite hfresh
  generalize run step (start site) events = w at *
  obtain ⟨key, _, cert, _, _, rfl, hcert⟩ := downloadCertificate_ok hdownload
  obtain ⟨hcached, rfl⟩ | ⟨hnone, _, hnew, _⟩ := hcert
  · obtain ⟨hc, hck, hactive⟩ := cached_some hcached
    obtain ⟨ca, hca, hauthority, hby, hmat⟩ := hsigned cert hc hactive
    rw [hck] at hauthority
    have hkeeps : KeepsAuthority env w keyId ↔
        (latestCa w.site.toDb).map SSHCertificateAuthority.id = some ca.id := by
      rw [← hauthority]
      exact ⟨fun h => (h cert hcached).symm, fun h _ _ => h.symm⟩
    rw [hkeeps]
    constructor
    · intro hunder
      have hdistinct' : Distinct db'' := by
        obtain ⟨_, hget, _⟩ := sshCa_ok hpoll
        have hd := distinct_getActiveCa none hdistinct hpollFresh
        rw [hget] at hd
        exact hd
      exact latest_of_signedUnder hpoll hdistinct' hca hmat hby hunder
    · intro hlatest
      obtain ⟨r, hr, hrid⟩ := Option.map_eq_some_iff.mp hlatest
      obtain rfl : r = ca := Table.eq_of_key _ (latestCa_some hr).1 hca hrid
      exact signedUnder_of_latest hpoll hr hmat hby
  · obtain ⟨ca, hlatest, hby, hmat⟩ := hnew.authority
    refine iff_of_true (signedUnder_of_latest hpoll hlatest hmat hby) fun c hc => ?_
    rw [hnone] at hc
    cases hc

/-! ## An authority that is added -/

theorem distinct_start : Distinct aliceSite.toDb := fun a ha => absurd ha (Table.not_mem_empty a)

theorem freshKey_created : FreshKeys (start aliceSite) creating := by
  rintro env ⟨⟩ privateKey file _ ca hca
  exact absurd hca (Table.not_mem_empty ca)

theorem freshKey_second {db : Db}
    (h : ∀ ca ∈ db.certificateAuthorities.rows, ca.publicKey ≠ [] →
      strip isSpace ca.publicKey ≠ strip isSpace "ssh-ed25519 AAAB keywarden".toList) :
    FreshKey secondEnv db := by
  rintro privateKey file ⟨⟩
  exact h

/-- The certificate of a new key is signed by the only authority. -/
theorem signedUnder_created :
    SignedUnder aliceCertificate ⟨"ssh-ed25519 AAAA keywarden".toList,
      "SHA256:".toList ++ b64encode zerosDigest⟩ (sshCa secondEnv 1 (download created).2).2 := by
  have hdownload : download created = (.ok (aliceCertificate, filename), (download created).2) :=
    Prod.ext (by decide) rfl
  refine (signedUnder_download_iff aliceSite [creating] distinct_start ⟨freshKey_created, trivial⟩
    hdownload (Prod.ext ?_ rfl) (freshKey_second ?_)).mpr fun _ _ => ?_
  · decide
  · decide
  · decide

def addition : Event := .addCa "Next CA".toList true none 2000
def added : World := run step (start aliceSite) [creating, addition]

/-- An authority is added; the next poll names it, and the certificate that the download
still hands out is signed by the one before. -/
theorem certificate_outlives_authority :
    ¬ ∀ (site : Site) (events : List Event) (env env' : Env) (caller : Caller) (keyId serverId : Nat)
      (body : SignedCertificate) (filename : List Char) (out : SshCaOut) (db' db'' : Db),
      Distinct site.toDb → Along step FreshKeys (start site) events →
      downloadCertificate env caller keyId (run step (start site) events).site.toDb =
        (.ok (body, filename), db') →
      sshCa env' serverId db' = (.ok out, db'') → FreshKey env' db' → SignedUnder body out db'' := by
  intro h
  have hdownload : download added = (.ok (aliceCertificate, filename), (download added).2) :=
    Prod.ext (by decide) rfl
  have hpoll : sshCa secondEnv 1 (download added).2 =
      (.ok ⟨"ssh-ed25519 AAAB keywarden".toList, "SHA256:".toList ++ b64encode zerosDigest⟩,
        (sshCa secondEnv 1 (download added).2).2) := Prod.ext (by decide) rfl
  have hfresh : Along step FreshKeys (start aliceSite) [creating, addition] :=
    ⟨freshKey_created, fun env henv => (by cases henv), trivial⟩
  obtain ⟨ca, _, hpub, _, hsigned⟩ := h aliceSite [creating, addition] workingEnv secondEnv _ _ 1 _ _ _ _ _
    distinct_start hfresh hdownload hpoll (freshKey_second (by decide))
  rw [hpub] at hsigned
  exact absurd hsigned (by decide)

end Keywarden.CertificateAuthority

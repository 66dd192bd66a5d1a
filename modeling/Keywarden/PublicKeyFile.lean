import Keywarden.Keys

/-!
# The public key file

The text of a key is split when it is set, joined and stored, split and joined with a comment when
its certificate is issued, and written as a file for `ssh-keygen`. The stored text parses to what
the text parsed to, and the file is one line of three words: what the user has entered as a text or
as a name fills words of it and adds none.
-/
namespace Keywarden.PublicKeyFile

open Rows Text Username Keys

/-- The file `user.pub` that `_sign_public_key` writes. -/
def publicKeyFile (r : SignRequest) : List Char := ensureComment r.publicKey r.comment ++ ['\n']

/-- What `issue_certificate_for_key` asks to be signed. -/
def signRequest (env : Env) (ca : SSHCertificateAuthority) (user : User) (key : SSHKey) :
    SignRequest where
  caPrivateKey := ca.privateKey
  caPublicKey := ca.publicKey
  publicKey := key.publicKey
  identity := identity key
  principal := renderSystemUsername env.caseTable env.cfg.accountUsernameTemplate user.username key.user
  serial := env.serial
  validityDays := env.cfg.userCertValidityDays
  comment := identity key

/-- The public key file that `ssh-keygen` is run on, if it is run. -/
def handed (env : Env) (key : SSHKey) (createdBy : Option UserId) (db : Db) : Option (List Char) :=
  match getActiveCa env createdBy db with
  | (.error _, _) => none
  | (.ok ca, db) =>
    match db.users.find key.user with
    | none => none
    | some user =>
      if ca.privateKey = [] ∨ ca.publicKey = [] then none
      else some (publicKeyFile (signRequest env ca user key))

/-- `issue_certificate_for_key` runs `ssh-keygen` on that file: where `ssh-keygen` fails the call
ends with its error, and a certificate that is issued is for the line of the file. -/
structure RunOn (env : Env) (key : SSHKey) (createdBy : Option UserId) (db : Db)
    (file : List Char) : Prop where
  fails : ∀ e, (issueCertificateForKey { env with signError := some e } key createdBy db).1 =
    .error (.error e)
  signs : ∀ cert db', issueCertificateForKey { env with signError := none } key createdBy db =
    (.ok cert, db') → cert.certificate.publicKeyLine ++ ['\n'] = file

/-- `issue_certificate_for_key` fails before it would run `ssh-keygen`. -/
def NotRun (env : Env) (key : SSHKey) (createdBy : Option UserId) (db : Db) : Prop :=
  ∃ e, ∀ signError,
    (issueCertificateForKey { env with signError := signError } key createdBy db).1 = .error e

/-- A character of a label. -/
def ofLabel (c : Char) : Bool := c.isLower || c.isDigit || c = '_' || c = '-'

/-- The file for a key is one line: the type and the payload that were parsed, and the identity. -/
structure KeyLine (p : PublicKey) (key : SSHKey) (file : List Char) : Prop where
  text : file = p.keyType ++ ' ' :: (p.keyB64 ++ ' ' :: (identity key ++ ['\n']))
  fields : words file = [p.keyType, p.keyB64, identity key]
  oneLine : file.filter isSpace = [' ', ' ', '\n']
  payload : ∀ c ∈ p.keyB64, c ∈ b64Alphabet ∨ c = '='
  label : ∃ label, label ≠ [] ∧ (∀ c ∈ label, ofLabel c = true) ∧
    identity key = "keywarden-cert-".toList ++ str key.user ++ '-' :: label ++ '-' :: str key.id

/-! ## What is parsed -/

theorem mem_of_b64Value {c : Char} {x : Nat} (h : b64Value c = some x) : c ∈ b64Alphabet := by
  unfold b64Value at h
  split at h
  · next hmem => exact hmem
  · cases h

theorem b64Quanta_characters {s : List Char} {bytes : List Nat} (h : b64Quanta s = some bytes) :
    ∀ c ∈ s, c ∈ b64Alphabet ∨ c = '=' := by
  fun_induction b64Quanta s generalizing bytes with
  | case1 => exact fun c hc => absurd hc List.not_mem_nil
  | case2 rest hpadding =>
    have hrest : ∀ c ∈ rest, c = '=' := by simpa using hpadding
    exact List.forall_mem_cons.mpr ⟨.inr rfl, fun c hc => .inr (hrest c hc)⟩
  | case3 => cases h
  | case4 a b =>
    simp only [Option.bind_eq_bind, Option.bind_eq_some_iff] at h
    obtain ⟨x, ha, y, hb, -⟩ := h
    simp [mem_of_b64Value ha, mem_of_b64Value hb]
  | case5 a b c =>
    simp only [Option.bind_eq_bind, Option.bind_eq_some_iff] at h
    obtain ⟨x, ha, y, hb, z, hc, -⟩ := h
    simp [mem_of_b64Value ha, mem_of_b64Value hb, mem_of_b64Value hc]
  | case6 a b c d rest _ _ _ ih =>
    simp only [Option.bind_eq_bind, Option.bind_eq_some_iff] at h
    obtain ⟨x, ha, y, hb, z, hc, w, hd, bytes', hrest, -⟩ := h
    simp only [List.forall_mem_cons]
    exact ⟨.inl (mem_of_b64Value ha), .inl (mem_of_b64Value hb), .inl (mem_of_b64Value hc),
      .inl (mem_of_b64Value hd), ih hrest⟩
  | case7 => cases h

/-- What decodes is of the alphabet, but for the padding. -/
theorem b64decode_characters {s : List Char} {bytes : List Nat} (h : b64decode s = some bytes) :
    ∀ c ∈ s, c ∈ b64Alphabet ∨ c = '=' := by
  unfold b64decode at h
  split at h
  · cases h
  · exact b64Quanta_characters h

/-- A key that parses has a type and a payload, which are words. -/
theorem parsePublicKey_ok {sha256 : List Nat → List Nat} {text : List Char} {p : PublicKey}
    (h : parsePublicKey sha256 text = .ok p) : ∃ rest bytes,
      words text = p.keyType :: p.keyB64 :: rest ∧ b64decode p.keyB64 = some bytes ∧
      p.fingerprint = "SHA256:".toList ++ b64encode (sha256 bytes) := by
  unfold parsePublicKey at h
  split at h
  · next keyType keyB64 rest hwords =>
    split at h
    · next bytes hbytes =>
      cases h
      exact ⟨rest, bytes, hwords, hbytes, rfl⟩
    · cases h
  · cases h

/-- Two words make a text of two words. -/
theorem words_pair {s t : List Char} (hs : Word s) (ht : Word t) : words (s ++ ' ' :: t) = [s, t] := by
  rw [hs.words_append (by decide), ht.words_eq]

theorem parsePublicKey_words {sha256 : List Nat → List Nat} {text : List Char} {p : PublicKey}
    (h : parsePublicKey sha256 text = .ok p) : Word p.keyType ∧ Word p.keyB64 := by
  obtain ⟨rest, bytes, hwords, -⟩ := parsePublicKey_ok h
  have hmem : ∀ w ∈ p.keyType :: p.keyB64 :: rest, Word w := fun w hw =>
    word_of_mem_words (hwords ▸ hw)
  exact ⟨hmem _ List.mem_cons_self, hmem _ (List.mem_cons_of_mem _ List.mem_cons_self)⟩

/-- The type and the payload alone parse to the same. -/
theorem parsePublicKey_canonical {sha256 : List Nat → List Nat} {text : List Char} {p : PublicKey}
    (h : parsePublicKey sha256 text = .ok p) :
    parsePublicKey sha256 (p.keyType ++ ' ' :: p.keyB64) = .ok p := by
  obtain ⟨htype, hb64⟩ := parsePublicKey_words h
  obtain ⟨rest, bytes, -, hbytes, hfingerprint⟩ := parsePublicKey_ok h
  unfold parsePublicKey
  simp only [words_pair htype hb64, hbytes, ← hfingerprint]

/-! ## The identity -/

theorem labelChar_of_mem_dashRuns {s : List Char} : ∀ c ∈ dashRuns s, labelChar c = true := by
  fun_induction dashRuns s with
  | case1 => exact fun c hc => absurd hc List.not_mem_nil
  | case2 c cs hc ih => exact List.forall_mem_cons.mpr ⟨hc, ih⟩
  | case3 c hc => exact List.forall_mem_singleton.mpr (by decide)
  | case4 c d t hc hd ih => exact List.forall_mem_cons.mpr ⟨by decide, ih⟩
  | case5 c d t hc hd ih => exact ih

theorem toNat_toLower (c : Char) :
    c.toLower.toNat = if 65 ≤ c.toNat ∧ c.toNat ≤ 90 then c.toNat + 32 else c.toNat := by
  have hval : c.toNat = c.val.toNat := rfl
  have hA : 'A'.val.toNat = 65 := rfl
  have hZ : 'Z'.val.toNat = 90 := rfl
  unfold Char.toLower
  split
  · next h =>
    simp only [ge_iff_le, UInt32.le_iff_toNat_le] at h
    rw [if_pos (by omega)]
    change (c.val + 32).toNat = _
    rw [UInt32.toNat_add, hval]
    have h32 : (32 : UInt32).toNat = 32 := rfl
    omega
  · next h =>
    simp only [ge_iff_le, UInt32.le_iff_toNat_le] at h
    rw [if_neg (by omega)]

theorem eq_iff_toNat (c d : Char) : c = d ↔ c.toNat = d.toNat :=
  ⟨congrArg Char.toNat, fun h => Char.ext (UInt32.toNat_inj.mp h)⟩

theorem ofLabel_iff (c : Char) : ofLabel c = true ↔ (97 ≤ c.toNat ∧ c.toNat ≤ 122) ∨
    (48 ≤ c.toNat ∧ c.toNat ≤ 57) ∨ c.toNat = 95 ∨ c.toNat = 45 := by
  unfold ofLabel Char.isLower Char.isDigit
  simp only [Bool.or_eq_true, Bool.and_eq_true, decide_eq_true_eq, UInt32.le_iff_toNat_le, ge_iff_le,
    eq_iff_toNat, or_assoc]
  exact Iff.rfl

theorem labelChar_iff (c : Char) : labelChar c = true ↔ (65 ≤ c.toNat ∧ c.toNat ≤ 90) ∨
    (97 ≤ c.toNat ∧ c.toNat ≤ 122) ∨ (48 ≤ c.toNat ∧ c.toNat ≤ 57) ∨ c.toNat = 95 ∨
    c.toNat = 45 := by
  unfold labelChar Char.isAlphanum Char.isAlpha Char.isUpper Char.isLower Char.isDigit
  simp only [Bool.or_eq_true, Bool.and_eq_true, decide_eq_true_eq, UInt32.le_iff_toNat_le, ge_iff_le,
    eq_iff_toNat, or_assoc]
  exact Iff.rfl

theorem ofLabel_toLower {c : Char} (h : labelChar c = true) : ofLabel c.toLower = true := by
  rw [labelChar_iff] at h
  rw [ofLabel_iff, toNat_toLower]
  split <;> omega

theorem sanitizeLabel_ne_nil (value : List Char) : sanitizeLabel value ≠ [] := by
  unfold sanitizeLabel
  simp only
  split
  · next h => simpa using h
  · decide

theorem ofLabel_of_mem_sanitizeLabel {value : List Char} :
    ∀ c ∈ sanitizeLabel value, ofLabel c = true := by
  unfold sanitizeLabel
  simp only
  split
  · intro c hc
    obtain ⟨d, hd, rfl⟩ := List.mem_map.mp hc
    exact ofLabel_toLower (labelChar_of_mem_dashRuns d (mem_of_mem_strip hd))
  · exact List.all_eq_true.mp (by decide)

/-- Labels, numbers and dashes have no space. -/
theorem not_isSpace_of_ofLabel {c : Char} (h : ofLabel c = true) : isSpace c = false := by
  simp only [ofLabel, Bool.or_eq_true, decide_eq_true_eq, or_assoc] at h
  have halphanum : c.isAlphanum = (c.isUpper || c.isLower || c.isDigit) := rfl
  obtain h | h | rfl | rfl := h
  · exact isSpace_of_printing (printing_of_isAlphanum (by simp [halphanum, h]))
  · exact isSpace_of_printing (printing_of_isAlphanum (by simp [halphanum, h]))
  · decide
  · decide

theorem ofLabel_of_mem_str {n : Nat} {c : Char} (h : c ∈ str (n : Int)) : ofLabel c = true := by
  simp [ofLabel, isDigit_of_mem_str h]

theorem ofLabel_marker : ∀ c ∈ "keywarden-cert-".toList, ofLabel c = true :=
  List.all_eq_true.mp (by decide)

/-- A fixed text, two numbers, and a label made of the name. -/
theorem identity_eq (key : SSHKey) : ∃ label, label ≠ [] ∧ (∀ c ∈ label, ofLabel c = true) ∧
    identity key = "keywarden-cert-".toList ++ str key.user ++ '-' :: label ++ '-' :: str key.id :=
  ⟨_, sanitizeLabel_ne_nil _, ofLabel_of_mem_sanitizeLabel, rfl⟩

theorem word_identity (key : SSHKey) : Word (identity key) := by
  obtain ⟨label, -, hlabel, heq⟩ := identity_eq key
  rw [heq]
  refine ⟨List.append_ne_nil_of_right_ne_nil _ (List.cons_ne_nil _ _), fun c hc => ?_⟩
  refine not_isSpace_of_ofLabel ?_
  obtain hc | hc := List.mem_append.mp hc
  · obtain hc | hc := List.mem_append.mp hc
    · obtain hc | hc := List.mem_append.mp hc
      · exact ofLabel_marker c hc
      · exact ofLabel_of_mem_str hc
    · obtain rfl | hc := List.mem_cons.mp hc
      · decide
      · exact hlabel c hc
  · obtain rfl | hc := List.mem_cons.mp hc
    · decide
    · exact ofLabel_of_mem_str hc

/-! ## The file -/

theorem filter_isSpace {w : List Char} (h : Word w) : w.filter isSpace = [] :=
  List.filter_eq_nil_iff.mpr fun c hc => Bool.not_eq_true _ ▸ h.plain c hc

/-- The file of a key whose text is a type and a payload. -/
theorem keyLine {sha256 : List Nat → List Nat} {text : List Char} {p : PublicKey} {key : SSHKey}
    (h : parsePublicKey sha256 text = .ok p) (hkey : key.publicKey = p.keyType ++ ' ' :: p.keyB64)
    (env : Env) (ca : SSHCertificateAuthority) (user : User) :
    KeyLine p key (publicKeyFile (signRequest env ca user key)) := by
  obtain ⟨htype, hb64⟩ := parsePublicKey_words h
  obtain ⟨_, bytes, -, hbytes, -⟩ := parsePublicKey_ok h
  have hidentity := word_identity key
  have htext : publicKeyFile (signRequest env ca user key) =
      p.keyType ++ ' ' :: (p.keyB64 ++ ' ' :: (identity key ++ ['\n'])) := by
    simp only [publicKeyFile, signRequest, ensureComment, hkey, words_pair htype hb64,
      if_neg hidentity.ne_nil, List.append_assoc, List.cons_append]
  refine ⟨htext, ?_, ?_, b64decode_characters hbytes, identity_eq key⟩
  · rw [htext, htype.words_append (by decide), hb64.words_append (by decide),
      hidentity.words_append (by decide)]
    rfl
  · rw [htext]
    simp only [List.filter_append, List.filter_cons, filter_isSpace htype, filter_isSpace hb64,
      filter_isSpace hidentity]
    rfl

theorem setPublicKey_ok {sha256 : List Nat → List Nat} {text : List Char} {key stored : SSHKey}
    (h : setPublicKey sha256 text key = .ok stored) : ∃ p, parsePublicKey sha256 text = .ok p ∧
      stored = { key with
        keyType := p.keyType
        fingerprint := p.fingerprint
        publicKey := p.keyType ++ ' ' :: p.keyB64 } := by
  unfold setPublicKey at h
  split at h
  · cases h
  · next p hp =>
    cases h
    exact ⟨p, hp, rfl⟩

theorem signPublicKey_line {signError : Option String} {r : SignRequest} {cert : SignedCertificate}
    (h : signPublicKey signError r = .ok cert) : cert.publicKeyLine ++ ['\n'] = publicKeyFile r := by
  unfold signPublicKey at h
  split at h
  · cases h
  · split at h
    · cases h
    · cases h
      rfl

/-- No file, no `ssh-keygen`: the call ends the same whatever that would do. -/
theorem notRun_of_handed {env : Env} {key : SSHKey} {createdBy : Option UserId} {db : Db}
    (h : handed env key createdBy db = none) : NotRun env key createdBy db := by
  unfold handed at h
  split at h
  · next e db₁ hca =>
    refine ⟨e, fun signError => ?_⟩
    have hca' : getActiveCa { env with signError := signError } createdBy db = (.error e, db₁) := hca
    simp only [issueCertificateForKey, hca']
  · next ca db₁ hca =>
    have hca' : ∀ signError, getActiveCa { env with signError := signError } createdBy db =
      (.ok ca, db₁) := fun _ => hca
    split at h
    · next huser =>
      refine ⟨.error "User matching query does not exist.", fun signError => ?_⟩
      simp only [issueCertificateForKey, hca', huser]
    · next user huser =>
      split at h
      · next hmaterial =>
        refine ⟨.error "CA material missing", fun signError => ?_⟩
        simp only [issueCertificateForKey, hca', huser, signPublicKey, if_pos hmaterial]
      · cases h

/-- The file is the one that `ssh-keygen` is run on. -/
theorem runOn_of_handed {env : Env} {key : SSHKey} {createdBy : Option UserId} {db : Db}
    {file : List Char} (h : handed env key createdBy db = some file) :
    RunOn env key createdBy db file := by
  unfold handed at h
  split at h
  · cases h
  · next ca db₁ hca =>
    have hca' : ∀ signError, getActiveCa { env with signError := signError } createdBy db =
      (.ok ca, db₁) := fun _ => hca
    split at h
    · cases h
    · next user huser =>
      split at h
      · cases h
      · next hmaterial =>
        cases h
        constructor
        · intro e
          simp only [issueCertificateForKey, hca', huser, signPublicKey, if_neg hmaterial]
        · intro cert db' hissued
          simp only [issueCertificateForKey, hca', huser] at hissued
          split at hissued
          · cases hissued
          · next signed hsigned =>
            split at hissued
            · cases hissued
              exact signPublicKey_line hsigned
            · cases hissued

/-- The file of a key that was set. -/
theorem keyLine_of_handed {sha256 : List Nat → List Nat} {text : List Char} {p : PublicKey}
    {key : SSHKey} (hp : parsePublicKey sha256 text = .ok p)
    (hkey : key.publicKey = p.keyType ++ ' ' :: p.keyB64) {env : Env} {createdBy : Option UserId}
    {db : Db} {file : List Char} (h : handed env key createdBy db = some file) : KeyLine p key file := by
  unfold handed at h
  split at h
  · cases h
  · next ca db₁ hca =>
    split at h
    · cases h
    · next user huser =>
      split at h
      · cases h
      · cases h
        exact keyLine hp hkey env ca user

/-- For every text that is accepted: what is stored parses to what the text parses to, and whatever
the name of the key is when its certificate is issued, the one file that `ssh-keygen` is run on, if
it is run, is one line of three words. -/
theorem setPublicKey_canonical {sha256 : List Nat → List Nat} {text : List Char}
    {key stored : SSHKey} (h : setPublicKey sha256 text key = .ok stored) :
    ∃ p, parsePublicKey sha256 text = .ok p ∧ parsePublicKey sha256 stored.publicKey = .ok p ∧
      stored.keyType = p.keyType ∧ stored.fingerprint = p.fingerprint ∧
      ∀ (name : List Char) (env : Env) (createdBy : Option UserId) (db : Db),
        (handed env { stored with name := name } createdBy db = none →
          NotRun env { stored with name := name } createdBy db) ∧
        ∀ file ∈ handed env { stored with name := name } createdBy db,
          RunOn env { stored with name := name } createdBy db file ∧
            KeyLine p { stored with name := name } file := by
  obtain ⟨p, hp, rfl⟩ := setPublicKey_ok h
  refine ⟨p, hp, parsePublicKey_canonical hp, rfl, rfl, ?_⟩
  intro name env createdBy db
  refine ⟨notRun_of_handed, fun file hfile => ⟨runOn_of_handed hfile, ?_⟩⟩
  exact keyLine_of_handed hp rfl hfile

/-- A key whose name has a line of its own. -/
def unset : SSHKey where
  id := 7
  user := 1
  name := "lap top\nssh-rsa AAAA".toList
  publicKey := []
  keyType := []
  fingerprint := []
  isActive := true
  createdAt := 0
  revokedAt := none

def pasted : List Char := " ssh-ed25519\tAAAA someone\nssh-rsa BBBB other ".toList

theorem setPublicKey_pasted : ∃ stored, setPublicKey (fun _ => zerosDigest) pasted unset = .ok stored ∧
    ∃ p, parsePublicKey (fun _ => zerosDigest) pasted = .ok p ∧
      parsePublicKey (fun _ => zerosDigest) stored.publicKey = .ok p ∧
      stored.keyType = p.keyType ∧ stored.fingerprint = p.fingerprint ∧
      ∀ (name : List Char) (env : Env) (createdBy : Option UserId) (db : Db),
        (handed env { stored with name := name } createdBy db = none →
          NotRun env { stored with name := name } createdBy db) ∧
        ∀ file ∈ handed env { stored with name := name } createdBy db,
          RunOn env { stored with name := name } createdBy db file ∧
            KeyLine p { stored with name := name } file :=
  ⟨_, rfl, setPublicKey_canonical rfl⟩

end Keywarden.PublicKeyFile

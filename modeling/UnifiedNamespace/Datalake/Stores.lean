/-
# `Datalake.Stores` — publications are exact and stay

`publish_exact` of `stores.py` for the two stores.  On S3 it is one conditional put, and a
read where the key is taken.  On ADLS it looks for the file, uploads to a staging file,
reads it back, renames it and reads the result.  Each of these is a request of its own: other
publishers make theirs in between, and each may fail before or after it took effect.

What a call returns for is there and stays, what is there is never replaced, and a call that
finds other content ends in `IntegrityError` or in the error of a request that failed
(`publish_exact_safe`).  A rename replaces what another publisher has put at its target in the
meantime (`rename_replaces`); nothing is said here of runs where it meets other content.
-/
import UnifiedNamespace.Lib.Clients
import UnifiedNamespace.Python.Sha256

namespace Uns.Lake

open Py Lib

/-! ## The stores -/

/-- The exceptions of the SDKs. -/
inductive StoreError where
  | clientError (code : Str)
  | httpResponseError (statusCode : ℤ)
  | other
  deriving DecidableEq

inductive Request where
  /-- With `IfNoneMatch="*"`. -/
  | putObject (key : Str) (body : Bytes)
  | getObject (key : Str)
  | fileExists (path : Str)
  /-- With `overwrite=False`. -/
  | uploadData (path : Str) (data : Bytes)
  | downloadFile (path : Str)
  | renameFile (path target : Str)

def Answer : Request → Type
  | .putObject _ _ | .uploadData _ _ | .renameFile _ _ => Except StoreError Unit
  | .getObject _ | .downloadFile _ => Except StoreError Bytes
  | .fileExists _ => Except StoreError Bool

abbrev Files := Str → Option Bytes

/-- The content goes where there is none. -/
def create (path : Str) (content : Bytes) (taken : StoreError) (files : Files) : Except StoreError Unit × Files :=
  match files path with
  | none => (.ok (), Function.update files path (some content))
  | some _ => (.error taken, files)

/-- The content that is there. -/
def read (path : Str) (missing : StoreError) (files : Files) : Except StoreError Bytes :=
  match files path with
  | none => .error missing
  | some content => .ok content

/-- A request that does not fail. -/
def perform : (r : Request) → Files → Answer r × Files
  | .putObject key body, files => create key body (.clientError (lit "PreconditionFailed")) files
  | .getObject key, files => (read key (.clientError (lit "NoSuchKey")) files, files)
  | .fileExists path, files => (.ok (files path).isSome, files)
  | .uploadData path data, files => create path data (.httpResponseError 409) files
  | .downloadFile path, files => (read path (.httpResponseError 404) files, files)
  | .renameFile path target, files =>
      match files path with
      | none => (.error (.httpResponseError 404), files)
      | some content => (.ok (), Function.update (Function.update files path none) target (some content))

/-- A request fails without effect, after its effect, or in the middle of an upload. -/
inductive Fault where
  | none
  | before (e : StoreError)
  | after (e : StoreError)
  | torn (e : StoreError) (left : Bytes)

def Fault.error : Fault → Option StoreError
  | .none => Option.none
  | .before e | .after e | .torn e _ => some e

def failure (e : StoreError) : (r : Request) → Answer r
  | .putObject _ _ | .uploadData _ _ | .renameFile _ _ | .getObject _ | .downloadFile _ | .fileExists _ => .error e

/-- What an upload leaves that breaks off. -/
def tear (left : Bytes) (files : Files) : Request → Files
  | .uploadData path _ => (create path left .other files).2
  | _ => files

def serve (r : Request) (fault : Fault) (files : Files) : Answer r × Files :=
  match fault with
  | .none => perform r files
  | .before e => (failure e r, files)
  | .after e => (failure e r, (perform r files).2)
  | .torn e left => (failure e r, tear left files r)

/-! ## `publish_exact` -/

inductive Raised where
  | integrityError (message : Str)
  | accessDenied (cause : StoreError)
  | runtimeError (message : Str)
  | store (e : StoreError)
  deriving DecidableEq

abbrev LakeClient := Client Request Answer (Except Raised Unit)

def s3PreconditionCodes : List Str := [lit "PreconditionFailed", lit "412"]

def s3ConflictCodes : List Str := [lit "ConditionalRequestConflict", lit "409"]

def s3AccessDeniedCodes : List Str :=
  [lit "AccessDenied", lit "403", lit "InvalidAccessKeyId", lit "SignatureDoesNotMatch"]

def stagingPrefix : Str := lit "_staging/"

def raise (e : Raised) : LakeClient := .done (.error e)

/-- `object {key} not found`. -/
def notFound (key : Str) : Raised := .integrityError (lit "object " ++ key ++ lit " not found")

/-- The length and the hash are those expected. -/
def verifyContent (content : Bytes) (sha256 : Str) (byteLength : Nat) (next : LakeClient) : LakeClient :=
  if content.length ≠ byteLength then
    raise (.integrityError (lit "object length " ++ decimal content.length ++ lit " does not match expected " ++
      decimal byteLength))
  else if sha256Hex content ≠ sha256 then
    raise (.integrityError (lit "object hash " ++ sha256Hex content ++ lit " does not match expected " ++ sha256))
  else next

namespace S3

def verifyExact (key sha256 : Str) (byteLength : Nat) : LakeClient :=
  .ask (.getObject key) fun (response : Except StoreError Bytes) =>
    match response with
    | .error (.clientError code) =>
        if code ∈ s3AccessDeniedCodes then raise (.accessDenied (.clientError code)) else raise (notFound key)
    | .error e => raise (.store e)
    | .ok body => verifyContent body sha256 byteLength (.done (.ok ()))

def publishExact (key : Str) (data : Bytes) (sha256 : Str) : LakeClient :=
  .ask (.putObject key data) fun (response : Except StoreError Unit) =>
    match response with
    | .ok () => .done (.ok ())
    | .error (.clientError code) =>
        if code ∈ s3AccessDeniedCodes then raise (.accessDenied (.clientError code))
        else if code ∈ s3PreconditionCodes ∨ code ∈ s3ConflictCodes then verifyExact key sha256 data.length
        else raise (.store (.clientError code))
    | .error e => raise (.store e)

end S3

namespace Adls

/-- `_full_path` with the stripped directory. -/
def fullPath (directory path : Str) : Str := if directory = [] then path else directory ++ lit "/" ++ path

/-- `_raise_access_denied`, and the exception itself. -/
def raiseAccessDenied (e : StoreError) : LakeClient :=
  match e with
  | .httpResponseError status => if status = 401 ∨ status = 403 then raise (.accessDenied e) else raise (.store e)
  | _ => raise (.store e)

/-- `_verify_client`. -/
def verifyClient (path sha256 : Str) (byteLength : Nat) (next : LakeClient) : LakeClient :=
  .ask (.downloadFile path) fun (stream : Except StoreError Bytes) =>
    match stream with
    | .error e => raiseAccessDenied e
    | .ok content => verifyContent content sha256 byteLength next

def verifyExact (directory key sha256 : Str) (byteLength : Nat) : LakeClient :=
  .ask (.fileExists (fullPath directory key)) fun (found : Except StoreError Bool) =>
    match found with
    | .error e => raise (.store e)
    | .ok false => raise (notFound key)
    | .ok true => verifyClient (fullPath directory key) sha256 byteLength (.done (.ok ()))

/-- The `except` of the rename. -/
def renameFailed (directory key : Str) (data : Bytes) (sha256 : Str) (e : StoreError) : LakeClient :=
  .ask (.fileExists (fullPath directory key)) fun (found : Except StoreError Bool) =>
    match found with
    | .error e' => raise (.store e')
    | .ok true => verifyExact directory key sha256 data.length
    | .ok false => raiseAccessDenied e

/-- The rename, and what follows it. -/
def finalize (directory key : Str) (data : Bytes) (sha256 staging : Str) : LakeClient :=
  .ask (.renameFile staging (fullPath directory key)) fun (renamed : Except StoreError Unit) =>
    match renamed with
    | .ok () => verifyExact directory key sha256 data.length
    | .error e => renameFailed directory key data sha256 e

def publishExact (directory : Str) (atomicFinalizeSupported : Bool) (key : Str) (data : Bytes) (sha256 uuid : Str) :
    LakeClient :=
  if atomicFinalizeSupported = false then raise (.runtimeError (lit "adls immutable finalization unsupported"))
  else
    .ask (.fileExists (fullPath directory key)) fun (found : Except StoreError Bool) =>
      match found with
      | .error e => raise (.store e)
      | .ok true => verifyExact directory key sha256 data.length
      | .ok false =>
          let staging := fullPath directory (stagingPrefix ++ uuid ++ lit ".upload")
          .ask (.uploadData staging data) fun (uploaded : Except StoreError Unit) =>
            match uploaded with
            | .error e => raise (.store e)
            | .ok () => verifyClient staging sha256 data.length (finalize directory key data sha256 staging)

end Adls

inductive Store where
  | s3
  | adls (directory : Str) (atomicFinalizeSupported : Bool)

def Store.path : Store → Str → Str
  | .s3, key => key
  | .adls directory _, key => Adls.fullPath directory key

/-- A call of `publish_exact`, with the `uuid4` of its staging file. -/
structure Publication where
  key : Str
  data : Bytes
  sha256 : Str
  uuid : Str

def publishExact (store : Store) (call : Publication) : LakeClient :=
  match store with
  | .s3 => S3.publishExact call.key call.data call.sha256
  | .adls directory supported => Adls.publishExact directory supported call.key call.data call.sha256 call.uuid

/-- The publishers' calls against one store. -/
def lakeService (store : Store) : Service Files Fault Publication Request (Except Raised Unit) Answer where
  serve := serve
  client := publishExact store

/-! ## What a publication promises -/

/-- The paths of the staging files. -/
def Store.Staging : Store → Str → Prop
  | .s3, _ => False
  | .adls directory _, path => ∃ name, path = Adls.fullPath directory (stagingPrefix ++ name)

/-- What is published stays. -/
def Kept (store : Store) (files later : Files) : Prop :=
  ∀ path, ¬ store.Staging path → ∀ content, files path = some content → later path = some content

/-- The exception is `IntegrityError`, comes from a request that failed, or says that the store cannot finalize. -/
def Explained (store : Store) (met : List Fault) : Raised → Prop
  | .integrityError _ => True
  | .accessDenied e | .store e => ∃ fault ∈ met, fault.error = some e
  | .runtimeError _ => ∃ directory, store = .adls directory false

/-- The result of a call is exact. -/
def Exact (store : Store) (call : Publication) (started : Files) (met : List Fault) (files : Files)
    (result : Except Raised Unit) : Prop :=
  (result = .ok () → files (store.path call.key) = some call.data) ∧
    ∀ content, started (store.path call.key) = some content → content ≠ call.data →
      ∃ e, result = .error e ∧ Explained store met e

/-- The hash of the call is that of its data, and its key names no staging file. -/
def Admitted (store : Store) (call : Publication) : Prop :=
  call.sha256 = sha256Hex call.data ∧ ¬ store.Staging (store.path call.key)

/-- A read of the key finds no other content with the length and the hash of the data, and a rename does not meet
other content at its target. -/
def SoundRequest (store : Store) (call : Publication) (fault : Fault) (files : Files) : Request → Prop
  | .getObject path | .downloadFile path => path = store.path call.key → ∀ content, files path = some content →
      content.length = call.data.length → sha256Hex content = call.sha256 → content = call.data
  | .renameFile path target => (∀ e, fault ≠ .before e) → (∀ e left, fault ≠ .torn e left) →
      ∀ moved content, files path = some moved → files target = some content → moved = content
  | _ => True

def lakeContract (store : Store) : Contract Files Fault Publication Request (Except Raised Unit) where
  admitted := Admitted store
  sound call r fault files := SoundRequest store call fault files r
  guarantee := Kept store
  post := Exact store

abbrev Publishers := Callers Nat Files Fault Publication Request (Except Raised Unit) Answer

abbrev LakeMove := CallerMove Nat Files Fault Publication Request (Except Raised Unit) Answer

/-- The interleavings that start from `init`, in which each move meets the contract. -/
def lakeSystem (store : Store) (init : Publishers → Prop) :=
  (lakeContract store).system (lakeService store) init

variable {store : Store} {files later : Files}

theorem Kept.refl (store : Store) (files : Files) : Kept store files files := fun _ _ _ h => h

theorem Kept.trans {latest : Files} (h : Kept store files later) (h' : Kept store later latest) :
    Kept store files latest := fun path hpath content hcontent => h' path hpath content (h path hpath content hcontent)

theorem Kept.create (store : Store) (path : Str) (content : Bytes) (taken : StoreError) (files : Files) :
    Kept store files (create path content taken files).2 := by
  intro p _ c hc
  rw [Lake.create]
  split
  · next hnone =>
      have hne : p ≠ path := by
        rintro rfl
        cases hnone.symm.trans hc
      dsimp only
      rw [Function.update_of_ne hne]
      exact hc
  · exact hc

/-- A staging file is moved to a path without other content. -/
theorem Kept.rename {path target : Str} (hpath : store.Staging path)
    (hsame : ∀ moved content, files path = some moved → files target = some content → moved = content) :
    Kept store files (perform (.renameFile path target) files).2 := by
  intro p hp c hc
  rw [perform]
  have hne : p ≠ path := by
    rintro rfl
    exact hp hpath
  split
  · exact hc
  · next moved hmoved =>
      by_cases htarget : p = target
      · obtain rfl := htarget
        rw [hsame moved c hmoved hc]
        exact Function.update_self ..
      · dsimp only
        rw [Function.update_of_ne htarget, Function.update_of_ne hne]
        exact hc

/-- The requests of `publish_exact` rename staging files only. -/
def Request.Fits (store : Store) : Request → Prop
  | .renameFile path _ => store.Staging path
  | _ => True

theorem Kept.serve {call : Publication} {r : Request} {fault : Fault} (hfits : r.Fits store)
    (hsound : SoundRequest store call fault files r) : Kept store files (serve r fault files).2 := by
  have hperform : (∀ e, fault ≠ .before e) → (∀ e left, fault ≠ .torn e left) →
      Kept store files (perform r files).2 := by
    intro hbefore htorn
    cases r with
    | putObject key body => exact Kept.create store key body _ files
    | uploadData path data => exact Kept.create store path data _ files
    | renameFile path target => exact Kept.rename hfits (hsound hbefore htorn)
    | getObject | fileExists | downloadFile => exact Kept.refl store files
  cases fault with
  | none => exact hperform (fun _ h => by cases h) fun _ _ h => by cases h
  | before e => exact Kept.refl store files
  | after e => exact hperform (fun _ h => by cases h) fun _ _ h => by cases h
  | torn e left =>
      cases r with
      | uploadData path data => exact Kept.create store path left _ files
      | putObject | getObject | fileExists | downloadFile | renameFile => exact Kept.refl store files

/-! ## Between two requests -/

/-- What the key held when the call was made is still there. -/
def Held (store : Store) (call : Publication) (started files : Files) : Prop :=
  ∀ content, started (store.path call.key) = some content → files (store.path call.key) = some content

variable {call : Publication} {started : Files} {met : List Fault}

theorem Held.kept (h : Held store call started files) (hkey : ¬ store.Staging (store.path call.key))
    (hkept : Kept store files later) : Held store call started later :=
  fun content hcontent => hkept _ hkey content (h content hcontent)

/-- The client of a call is on the way to an exact result. -/
abbrev OnTheWay (store : Store) (call : Publication) (started : Files) (met : List Fault) (files : Files)
    (client : LakeClient) : Prop :=
  client.Meets (lakeService store) (lakeContract store) call started met files

theorem onTheWay_returned (hheld : Held store call started files)
    (hdata : files (store.path call.key) = some call.data) : OnTheWay store call started met files (.done (.ok ())) := by
  refine ⟨fun _ => hdata, fun content hcontent hne => ?_⟩
  exact absurd (Option.some.inj ((hheld content hcontent).symm.trans hdata)) hne

theorem onTheWay_raise {e : Raised}
    (he : ∀ content, started (store.path call.key) = some content → content ≠ call.data → Explained store met e) :
    OnTheWay store call started met files (raise e) := by
  refine ⟨fun h => ?_, fun content hcontent hne => ⟨e, rfl, he content hcontent hne⟩⟩
  cases h

/-- A request, from what follows when it fails and when it is carried out. -/
theorem onTheWay_ask {r : Request} {next : Answer r → LakeClient} (hfits : r.Fits store)
    (hfailed : ∀ later fault e, Kept store files later → fault.error = some e →
      OnTheWay store call started (met ++ [fault]) later (next (failure e r)))
    (hperform : ∀ later, Kept store files later → SoundRequest store call .none later r →
      OnTheWay store call started (met ++ [.none]) (perform r later).2 (next (perform r later).1)) :
    OnTheWay store call started met files (.ask r next) := by
  intro later hlater fault hsound
  have hkept : Kept store later (serve r fault later).2 := Kept.serve hfits hsound
  refine ⟨hkept, ?_⟩
  have hfault := hfailed (serve r fault later).2 fault
  cases fault with
  | none => exact hperform later hlater hsound
  | before e => exact hfault e (hlater.trans hkept) rfl
  | after e => exact hfault e (hlater.trans hkept) rfl
  | torn e left => exact hfault e (hlater.trans hkept) rfl

theorem explained_fault {fault : Fault} {e : StoreError} (h : fault.error = some e) (met : List Fault) :
    ∃ f ∈ met ++ [fault], f.error = some e :=
  ⟨fault, List.mem_append_right _ List.mem_cons_self, h⟩

theorem onTheWay_verifyContent {content : Bytes} {next : LakeClient}
    (hnext : content.length = call.data.length → sha256Hex content = call.sha256 →
      OnTheWay store call started met files next) :
    OnTheWay store call started met files (verifyContent content call.sha256 call.data.length next) := by
  rw [verifyContent]
  split
  · exact onTheWay_raise fun _ _ _ => trivial
  · next hlength =>
      split
      · exact onTheWay_raise fun _ _ _ => trivial
      · next hhash => exact hnext (not_not.mp hlength) (not_not.mp hhash)

/-! ## S3 -/

theorem S3.onTheWay_verifyExact (hheld : Held .s3 call started files) :
    OnTheWay .s3 call started met files (S3.verifyExact call.key call.sha256 call.data.length) := by
  refine onTheWay_ask trivial ?_ ?_
  · intro later fault e hlater hfault
    cases e with
    | clientError code =>
        change OnTheWay _ _ _ _ _ (if code ∈ s3AccessDeniedCodes then _ else _)
        split
        · exact onTheWay_raise fun _ _ _ => explained_fault hfault met
        · exact onTheWay_raise fun _ _ _ => trivial
    | httpResponseError status => exact onTheWay_raise fun _ _ _ => explained_fault hfault met
    | other => exact onTheWay_raise fun _ _ _ => explained_fault hfault met
  · intro later hlater hsound
    rw [perform, read]
    cases hbody : later call.key with
    | none =>
        change OnTheWay _ _ _ _ _ (if lit "NoSuchKey" ∈ s3AccessDeniedCodes then _ else _)
        rw [if_neg (by decide)]
        exact onTheWay_raise fun _ _ _ => trivial
    | some body =>
        refine onTheWay_verifyContent fun hlength hhash => ?_
        have hbody' : body = call.data := hsound rfl body hbody hlength hhash
        exact onTheWay_returned (hheld.kept id hlater) (hbody' ▸ hbody)

theorem S3.onTheWay_publishExact (hheld : Held .s3 call started files) :
    OnTheWay .s3 call started met files (S3.publishExact call.key call.data call.sha256) := by
  refine onTheWay_ask trivial ?_ ?_
  · intro later fault e hlater hfault
    cases e with
    | clientError code =>
        change OnTheWay _ _ _ _ _ (if code ∈ s3AccessDeniedCodes then _
          else if code ∈ s3PreconditionCodes ∨ code ∈ s3ConflictCodes then _ else _)
        split
        · exact onTheWay_raise fun _ _ _ => explained_fault hfault met
        · split
          · exact S3.onTheWay_verifyExact (hheld.kept id hlater)
          · exact onTheWay_raise fun _ _ _ => explained_fault hfault met
    | httpResponseError status => exact onTheWay_raise fun _ _ _ => explained_fault hfault met
    | other => exact onTheWay_raise fun _ _ _ => explained_fault hfault met
  · intro later hlater hsound
    have hput : Held .s3 call started (perform (.putObject call.key call.data) later).2 :=
      (hheld.kept id hlater).kept id (Kept.create .s3 _ _ _ later)
    revert hput
    rw [perform, create]
    cases hkey : later call.key with
    | none => exact fun hput => onTheWay_returned hput (Function.update_self ..)
    | some body =>
        intro hput
        change OnTheWay _ _ _ _ _ (if lit "PreconditionFailed" ∈ s3AccessDeniedCodes then _
          else if lit "PreconditionFailed" ∈ s3PreconditionCodes ∨ lit "PreconditionFailed" ∈ s3ConflictCodes then _
          else _)
        rw [if_neg (by decide), if_pos (by decide)]
        exact S3.onTheWay_verifyExact hput

/-! ## ADLS -/

section

variable {directory : Str} {supported : Bool}

theorem Adls.onTheWay_raiseAccessDenied {e : StoreError}
    (he : ∀ content, started (store.path call.key) = some content → ∃ fault ∈ met, fault.error = some e) :
    OnTheWay store call started met files (Adls.raiseAccessDenied e) := by
  cases e with
  | httpResponseError status =>
      rw [Adls.raiseAccessDenied]
      split
      · exact onTheWay_raise fun content hcontent _ => he content hcontent
      · exact onTheWay_raise fun content hcontent _ => he content hcontent
  | clientError | other => exact onTheWay_raise fun content hcontent _ => he content hcontent

/-- A file is read back that is there, or by a call that found the key free. -/
theorem Adls.onTheWay_verifyClient {path : Str} {next : LakeClient}
    (hthere : ∀ later, Kept store files later → later path = none → started (store.path call.key) = none)
    (hnext : ∀ later, Kept store files later →
      (path = store.path call.key → later (store.path call.key) = some call.data) →
      OnTheWay store call started (met ++ [.none]) later next) :
    OnTheWay store call started met files (Adls.verifyClient path call.sha256 call.data.length next) := by
  refine onTheWay_ask trivial ?_ ?_
  · intro later fault e hlater hfault
    exact Adls.onTheWay_raiseAccessDenied fun _ _ => explained_fault hfault met
  · intro later hlater hsound
    rw [perform, read]
    cases hcontent : later path with
    | none =>
        refine Adls.onTheWay_raiseAccessDenied fun content hstarted => ?_
        cases (hthere later hlater hcontent).symm.trans hstarted
    | some content =>
        refine onTheWay_verifyContent fun hlength hhash => hnext later hlater ?_
        rintro rfl
        have hdata : content = call.data := hsound rfl content hcontent hlength hhash
        exact hdata ▸ hcontent

theorem Adls.onTheWay_verifyExact (hkey : ¬ (Store.adls directory supported).Staging (fullPath directory call.key))
    (hheld : Held (.adls directory supported) call started files) :
    OnTheWay (.adls directory supported) call started met files
      (Adls.verifyExact directory call.key call.sha256 call.data.length) := by
  refine onTheWay_ask trivial ?_ ?_
  · intro later fault e hlater hfault
    exact onTheWay_raise fun _ _ _ => explained_fault hfault met
  · intro later hlater _
    rw [perform]
    cases hfile : later (fullPath directory call.key) with
    | none => exact onTheWay_raise fun _ _ _ => trivial
    | some content =>
        refine Adls.onTheWay_verifyClient ?_ ?_
        · intro latest hlatest hnone
          cases hnone.symm.trans (hlatest _ hkey content hfile)
        · intro latest hlatest hdata
          exact onTheWay_returned ((hheld.kept hkey hlater).kept hkey hlatest) (hdata rfl)

/-- To a call that found the key free no exception is a conflict. -/
theorem onTheWay_raise_free (hfree : started (store.path call.key) = none) {e : Raised} :
    OnTheWay store call started met files (raise e) := by
  refine onTheWay_raise fun content hcontent _ => ?_
  cases hfree.symm.trans hcontent

theorem held_free (hfree : started (store.path call.key) = none) (files : Files) : Held store call started files := by
  intro content hcontent
  cases hfree.symm.trans hcontent

theorem Adls.onTheWay_renameFailed (hkey : ¬ (Store.adls directory supported).Staging (fullPath directory call.key))
    (hfree : started (fullPath directory call.key) = none) {e : StoreError} :
    OnTheWay (.adls directory supported) call started met files
      (Adls.renameFailed directory call.key call.data call.sha256 e) := by
  refine onTheWay_ask trivial (fun _ _ _ _ _ => onTheWay_raise_free hfree) ?_
  intro later hlater _
  rw [perform]
  cases later (fullPath directory call.key) with
  | none =>
      refine Adls.onTheWay_raiseAccessDenied fun content hcontent => ?_
      cases hfree.symm.trans hcontent
  | some content => exact Adls.onTheWay_verifyExact hkey (held_free hfree later)

theorem Adls.onTheWay_finalize (hkey : ¬ (Store.adls directory supported).Staging (fullPath directory call.key))
    (hfree : started (fullPath directory call.key) = none) {staging : Str}
    (hstaging : (Store.adls directory supported).Staging staging) :
    OnTheWay (.adls directory supported) call started met files
      (Adls.finalize directory call.key call.data call.sha256 staging) := by
  refine onTheWay_ask hstaging (fun _ _ _ _ _ => Adls.onTheWay_renameFailed hkey hfree) ?_
  intro later hlater _
  rw [perform]
  cases later staging with
  | none => exact Adls.onTheWay_renameFailed hkey hfree
  | some content => exact Adls.onTheWay_verifyExact hkey (held_free hfree _)

theorem Adls.onTheWay_publishExact (hkey : ¬ (Store.adls directory supported).Staging (fullPath directory call.key))
    (hheld : Held (.adls directory supported) call started files) :
    OnTheWay (.adls directory supported) call started met files
      (Adls.publishExact directory supported call.key call.data call.sha256 call.uuid) := by
  rw [Adls.publishExact]
  split
  · next hunsupported =>
      refine onTheWay_raise fun _ _ _ => ⟨directory, ?_⟩
      rw [hunsupported]
  · refine onTheWay_ask trivial ?_ ?_
    · intro later fault e hlater hfault
      exact onTheWay_raise fun _ _ _ => explained_fault hfault met
    · intro later hlater _
      have hlater := hheld.kept hkey hlater
      rw [perform]
      cases hfile : later (fullPath directory call.key) with
      | some content => exact Adls.onTheWay_verifyExact hkey hlater
      | none =>
          have hfree : started (fullPath directory call.key) = none := by
            refine Option.eq_none_iff_forall_ne_some.mpr fun content hcontent => ?_
            cases hfile.symm.trans (hlater content hcontent)
          -- the staging file is uploaded, read back and renamed
          have hstaging : (Store.adls directory supported).Staging
              (fullPath directory (stagingPrefix ++ call.uuid ++ lit ".upload")) :=
            ⟨call.uuid ++ lit ".upload", by rw [List.append_assoc]⟩
          refine onTheWay_ask trivial (fun _ _ _ _ _ => onTheWay_raise_free hfree) ?_
          intro latest hlatest _
          rw [perform, create]
          cases latest (fullPath directory (stagingPrefix ++ call.uuid ++ lit ".upload")) with
          | none =>
              exact Adls.onTheWay_verifyClient (fun _ _ _ => hfree)
                fun _ _ _ => Adls.onTheWay_finalize hkey hfree hstaging
          | some content => exact onTheWay_raise_free hfree

end

/-! ## Every interleaving -/

theorem onTheWay_publishExact (store : Store) (hkey : ¬ store.Staging (store.path call.key))
    (hheld : Held store call started files) : OnTheWay store call started met files (publishExact store call) := by
  cases store with
  | s3 => exact S3.onTheWay_publishExact hheld
  | adls directory supported => exact Adls.onTheWay_publishExact hkey hheld

theorem lakeContract_valid (store : Store) : (lakeContract store).Valid (lakeService store) where
  refl := Kept.refl store
  trans _ _ _ h h' := h.trans h'
  stable := by
    rintro call started met files later result ⟨-, hkey⟩ hkept ⟨hreturned, hconflict⟩
    exact ⟨fun hresult => hkept _ hkey _ (hreturned hresult), hconflict⟩
  client call files hcall := onTheWay_publishExact store hcall.2 fun _ hcontent => hcontent

/-- No publisher has an open call. -/
def Quiet (c : Publishers) : Prop := ∀ i, c.locals i = none

/-- In every interleaving, whatever the requests that fail: a call that has returned left its data under its key,
a call that found other content there has not returned and raises `IntegrityError` or the error of a request that
failed, and what is published stays. -/
theorem publish_exact_safe (store : Store) {c : Publishers} (h : (lakeSystem store Quiet).Reachable c) :
    (∀ i run result, c.locals i = some run → run.client = .done result →
      Exact store run.call run.started run.met c.shared result) ∧
    ∀ later, (lakeSystem store (· = c)).Reachable later → Kept store c.shared later.shared := by
  have hvalid := lakeContract_valid store
  have hsafe := (hvalid.reachable (fun _ _ _ _ => trivial) (fun c hquiet => ⟨trivial, fun i run hrun => by
    cases (hquiet i).symm.trans hrun⟩) h).2
  constructor
  · intro i run result hrun hdone
    obtain ⟨-, -, hmeets⟩ := hsafe i run hrun
    rw [hdone] at hmeets
    exact hmeets
  · intro later hlater
    refine (hvalid.reachable (fun _ _ hkept hI => ?_) ?_ hlater).1
    · exact hI.trans hkept
    · rintro _ rfl
      exact ⟨Kept.refl store _, hsafe⟩

def publicationOf (data : Bytes) (uuid : Str) : Publication := ⟨lit "raw/v2/a.parquet", data, sha256Hex data, uuid⟩

/-- Nobody is publishing. -/
def publishersAt (files : Files) : Publishers := ⟨files, fun _ => none⟩

theorem reachable_publishersAt (store : Store) (files : Files) :
    (lakeSystem store Quiet).Reachable (publishersAt files) := .init fun _ => rfl

/-- A first call on S3. -/
theorem publish_exact_safe_first : ∃ c : Publishers, c.shared (lit "raw/v2/a.parquet") = some [1] ∧
    ∀ later, (lakeSystem .s3 (· = c)).Reachable later → later.shared (lit "raw/v2/a.parquet") = some [1] := by
  have hreachable : (lakeSystem .s3 Quiet).Reachable ((lakeService .s3).program.run (publishersAt fun _ => none)
      [.advance 0 (.call (publicationOf [1] [])), .advance 0 (.answer .none)]) := by
    refine Program.reachable_run_restrict (reachable_publishersAt .s3 _) (by simp [Program.Allowed])
      ⟨⟨rfl, id⟩, ?_, trivial⟩
    rintro run hrun r next hnext
    cases hrun
    cases hnext
    exact trivial
  obtain ⟨hresult, hkept⟩ := publish_exact_safe .s3 hreachable
  have hdata := (hresult 0 _ (.ok ()) rfl rfl).1 rfl
  exact ⟨_, hdata, fun later hlater => hkept later hlater _ id _ hdata⟩

/-- The key holds other data, the put is denied, and the call raises `AccessDeniedError`. -/
theorem denied_not_integrity : ∃ c : Publishers, (lakeSystem .s3 Quiet).Reachable c ∧ ∃ run,
    c.locals 0 = some run ∧ run.started run.call.key = some [1] ∧ run.call.data = [2] ∧
      run.client.result = some (.error (.accessDenied (.clientError (lit "AccessDenied")))) := by
  have hreachable : (lakeSystem .s3 Quiet).Reachable ((lakeService .s3).program.run (publishersAt fun _ => some [1])
      [.advance 0 (.call (publicationOf [2] [])),
        .advance 0 (.answer (.before (.clientError (lit "AccessDenied"))))]) := by
    refine Program.reachable_run_restrict (reachable_publishersAt .s3 _) (by simp [Program.Allowed])
      ⟨⟨rfl, id⟩, ?_, trivial⟩
    rintro run hrun r next hnext
    cases hrun
    cases hnext
    exact trivial
  exact ⟨_, hreachable, _, rfl, rfl, rfl, rfl⟩

/-- What two publishers of one file do on ADLS until both have read their staging files. -/
def bothStaged : List LakeMove :=
  [.advance 0 (.call (publicationOf [1] (lit "a"))), .advance 1 (.call (publicationOf [2] (lit "b")))] ++
    (List.replicate 3 [.advance 0 (.answer .none), .advance 1 (.answer .none)]).flatten

/-- The rename of one publisher and its last reads. -/
def finalizes (i : Nat) : List LakeMove :=
  List.replicate 3 (.advance i (.answer .none))

def race (moves : List LakeMove) : Publishers :=
  (lakeService (.adls (lit "lake") true)).program.run (publishersAt fun _ => none) moves

def outcome (c : Publishers) (i : Nat) : Option (Except Raised Unit) := (c.locals i).bind fun run => run.client.result

/-- Without a failure the second rename replaces what the first call returned for, and the second returns too. -/
theorem rename_replaces :
    let first := race (bothStaged ++ finalizes 0)
    let second := race (bothStaged ++ finalizes 0 ++ finalizes 1)
    outcome first 0 = some (.ok ()) ∧ first.shared (lit "lake/raw/v2/a.parquet") = some [1] ∧
      outcome second 1 = some (.ok ()) ∧ second.shared (lit "lake/raw/v2/a.parquet") = some [2] := by
  decide +kernel

end Uns.Lake

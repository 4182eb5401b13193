/-
PacketDistribution.Keys.Keygen — the two writers of `keygen/main.cc`, the
options `main` calls them with, and `read_key` of `common/common.hpp`, which
reads what they wrote.

A writer turns a file system into a `Report`. `closed` is a history variable:
the output paths whose stream was closed, with what `good()` would have said
then. No statement of the writers asks for it.
-/
import PacketDistribution.Lib.TextStream

namespace PacketDistribution.Keys

open PacketDistribution.Lib

/-- `KeyPair`, as far as the writers use it. -/
structure KeyPair where
  privateKey : List UInt8
  publicKey : List UInt8
  deriving DecidableEq

/-- What the writers throw. -/
inductive KeygenError where
  /-- `std::runtime_error` -/
  | runtimeError (what : String)
  /-- `std::filesystem::filesystem_error`, of `exists` or `create_directories` -/
  | filesystemError
  deriving DecidableEq

/-- How a writer ends. `undefined` is the overflow of its counter. -/
inductive Outcome where
  | returned
  | threw (e : KeygenError)
  | undefined
  deriving DecidableEq

/-- The end of a call, the file system it leaves and the streams it closed. -/
structure Report where
  outcome : Outcome
  disk : FileSystem
  closed : List (Path × Bool)

/-- What follows from the answer of `exists`, if it gives one. -/
def checkAnswer (exists_ : Option Bool) (what : String) : Option KeygenError :=
  match exists_ with
  | none => some .filesystemError
  | some true => some (.runtimeError what)
  | some false => none

/-- The two questions of the check, the second one if the first lets through. -/
def checkPair (exists_ : Path → Option Bool) (force : Bool) (privatePath publicPath : Path) :
    Option KeygenError :=
  if force then none
  else
    match checkAnswer (exists_ privatePath) "Private key file already exists" with
    | some e => some e
    | none => checkAnswer (exists_ publicPath) "Public key file already exists"

/-- The check before a pair of files is opened. -/
def refusal (force : Bool) (privatePath publicPath : Path) (fs : FileSystem) :
    Option KeygenError :=
  checkPair fs.pathExists force privatePath publicPath

/-! ## `WriteMergedKeys` -/

/-- The loop over the key pairs. -/
def mergeKeys (nl : Newline) : List KeyPair → OutputStream → OutputStream → FileSystem →
    OutputStream × OutputStream × FileSystem
  | [], privateFile, publicFile, fs => (privateFile, publicFile, fs)
  | pair :: pairs, privateFile, publicFile, fs =>
      let privateFile := privateFile.write nl pair.privateKey
      let publicFile := publicFile.write nl pair.publicKey
      let (privateFile, fs) := privateFile.endl nl fs
      let (publicFile, fs) := publicFile.endl nl fs
      mergeKeys nl pairs privateFile publicFile fs

/-- `WriteMergedKeys`. -/
def writeMergedKeys (nl : Newline) (privateKeyMergedFile publicKeyMergedFile : StdString)
    (force : Bool) (pairs : List KeyPair) (fs : FileSystem) : Report :=
  let privatePath := Path.ofString privateKeyMergedFile
  let publicPath := Path.ofString publicKeyMergedFile
  match refusal force privatePath publicPath fs with
  | some e => ⟨.threw e, fs, []⟩
  | none =>
      let (privateFile, fs) := fs.openOutput privatePath
      let (publicFile, fs) := fs.openOutput publicPath
      let (privateFile, publicFile, fs) := mergeKeys nl pairs privateFile publicFile fs
      let (privateFile, fs) := privateFile.close fs
      let (publicFile, fs) := publicFile.close fs
      ⟨.returned, fs, [(privatePath, privateFile.good), (publicPath, publicFile.good)]⟩

/-! ## `WriteSeparateKeys` -/

/-- `"private" + std::to_string(i) + ".pem"`. -/
def privateName (i : Int) : StdString :=
  ['p', 'r', 'i', 'v', 'a', 't', 'e'] ++ toStdString i ++ ['.', 'p', 'e', 'm']

/-- `"public" + std::to_string(i) + ".pem"`. -/
def publicName (i : Int) : StdString :=
  ['p', 'u', 'b', 'l', 'i', 'c'] ++ toStdString i ++ ['.', 'p', 'e', 'm']

/-- The two streams of one pair. -/
def writePair (nl : Newline) (privatePath publicPath : Path) (pair : KeyPair) (fs : FileSystem) :
    FileSystem × List (Path × Bool) :=
  let (privateFile, fs) := fs.openOutput privatePath
  let (publicFile, fs) := fs.openOutput publicPath
  let privateFile := privateFile.write nl pair.privateKey
  let publicFile := publicFile.write nl pair.publicKey
  let (privateFile, fs) := privateFile.close fs
  let (publicFile, fs) := publicFile.close fs
  (fs, [(privatePath, privateFile.good), (publicPath, publicFile.good)])

/-- The loop of `WriteSeparateKeys`, at the counter `i`. -/
def writeSeparateKeysFrom (nl : Newline) (privateFolder publicFolder : Path) (force : Bool)
    (i : Int) (closed : List (Path × Bool)) : List KeyPair → FileSystem → Report
  | [], fs => ⟨.returned, fs, closed⟩
  | pair :: pairs, fs =>
      -- `i++` on the largest `int`
      if i = intMax then ⟨.undefined, fs, closed⟩ else
      let privatePath := privateFolder.child (privateName (i + 1))
      let publicPath := publicFolder.child (publicName (i + 1))
      match refusal force privatePath publicPath fs with
      | some e => ⟨.threw e, fs, closed⟩
      | none =>
          let (created, fs) := fs.createDirectories privateFolder
          if !created then ⟨.threw .filesystemError, fs, closed⟩ else
          let (created, fs) := fs.createDirectories publicFolder
          if !created then ⟨.threw .filesystemError, fs, closed⟩ else
          let (fs, closedNow) := writePair nl privatePath publicPath pair fs
          writeSeparateKeysFrom nl privateFolder publicFolder force (i + 1) (closed ++ closedNow)
            pairs fs

/-- `WriteSeparateKeys`. -/
def writeSeparateKeys (nl : Newline) (privateKeyOutputFolder publicKeyOutputFolder : StdString)
    (force : Bool) (pairs : List KeyPair) (fs : FileSystem) : Report :=
  writeSeparateKeysFrom nl (Path.ofString privateKeyOutputFolder)
    (Path.ofString publicKeyOutputFolder) force 0 [] pairs fs

/-! ## `main` -/

/-- The values of the declared options that decide where keys go, where they
were given. -/
structure Options where
  privateKeyOutputFolder : Option StdString
  publicKeyOutputFolder : Option StdString
  force : Option Bool
  merge : Option Bool
  publicKeyMergedFile : Option StdString
  privateKeyMergedFile : Option StdString

/-- What `main` passes to the writers. -/
structure Config where
  privateKeyOutputFolder : StdString
  publicKeyOutputFolder : StdString
  force : Bool
  merge : Bool
  publicKeyMergedFile : StdString
  privateKeyMergedFile : StdString

/-- The configuration of a command line. The two folder options are stored
under other names than `main` looks up, and without `po::notify` no variable
is set by `store`, so the folders keep their defaults. -/
def Config.ofOptions (o : Options) : Config where
  privateKeyOutputFolder := ['p', 'r', 'i', 'v', 'a', 't', 'e']
  publicKeyOutputFolder := ['p', 'u', 'b', 'l', 'i', 'c']
  force := o.force.getD true
  merge := o.merge.getD false
  publicKeyMergedFile := o.publicKeyMergedFile.getD []
  privateKeyMergedFile := o.privateKeyMergedFile.getD []

/-- The end of `main`, on verified key pairs. -/
def writeKeys (nl : Newline) (cfg : Config) (pairs : List KeyPair) (fs : FileSystem) : Report :=
  if cfg.merge then
    writeMergedKeys nl cfg.privateKeyMergedFile cfg.publicKeyMergedFile cfg.force pairs fs
  else
    writeSeparateKeys nl cfg.privateKeyOutputFolder cfg.publicKeyOutputFolder cfg.force pairs fs

/-! ## `read_key` -/

/-- What `read_key` throws. -/
inductive ReadKeyError where
  /-- `std::invalid_argument`: the text, and the path it ends with -/
  | invalidArgument (text : String) (path : Path)
  /-- `std::length_error` or `std::bad_alloc`: `resize` to what `tellg` says of
  a directory -/
  | resize
  deriving DecidableEq

/-- `read_key`: the size is that of the raw file, the bytes are those of the
text, and what the text does not fill stays zero. A directory can be opened on
POSIX, and on Windows it cannot. -/
def readKey (nl : Newline) (fs : FileSystem) (p : Path) : Except ReadKeyError (List UInt8) :=
  let notFound : ReadKeyError := .invalidArgument "Couldn't find the key at path: "
    (if p.absolute then p else ⟨true, fs.cwd ++ p.parts⟩)
  match fs.openInput p, nl with
  | .nothing, _ => .error notFound
  | .directory, .windows => .error notFound
  | .directory, .posix => .error .resize
  | .file raw, nl =>
      let size := raw.length
      let text := nl.decode raw
      .ok (text.take size ++ List.replicate (size - text.length) 0)

/-! ## An example -/

/-- A disk with nothing on it. -/
def emptyDisk : FileSystem where
  cwd := []
  linkMax := 40
  refuses _ name := name.length > 255
  tooLong _ := false
  writable _ := true
  room _ := 1024
  node loc := if loc = [] then some .directory else none

/-- The bytes of a text. -/
def bytesOf (text : String) : List UInt8 :=
  text.toList.map fun c => c.toNat.toUInt8

/-- A pair of keys in PEM, three lines each. -/
def examplePair : KeyPair where
  privateKey := bytesOf "-----BEGIN KEY-----\nAQ==\n-----END KEY-----\n"
  publicKey := bytesOf "-----BEGIN KEY-----\nAg==\n-----END KEY-----\n"

/-- A command line without options. -/
def noOptions : Options := ⟨none, none, none, none, none, none⟩

end PacketDistribution.Keys

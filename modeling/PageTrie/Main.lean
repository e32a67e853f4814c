import PageTrie.CommandLine.Run

/-! The program. It brings the two files of a store into a volume, carries out the command
there with the page file locked, and writes back the files that changed. -/
namespace PageTrie.Disk

/-- Creates a file if it is missing; what stands in the way shows when the file is opened. -/
def touch (path : String) : IO Unit := do
  let _ ← (IO.FS.withFile path .append fun _ => pure ()).toBaseIO

def withFolders (volume : Volume) (path : String) : Volume :=
  match (Volume.makeFolders path).run volume with
  | .ok () volume | .error _ volume => volume

def load (volume : Volume) (path : String) : IO Volume := do
  match ← (IO.FS.readBinFile path).toBaseIO with
  | .error (.inappropriateType ..) => pure (withFolders volume path)
  | .error _ => pure volume
  | .ok bytes =>
    let volume := withFolders volume ("/".intercalate (path.splitOn "/").dropLast)
    let placed := do
      let (volume, file) ← volume.openFile path .readWrite (some 0o644)
      match (OpenFile.writeAt 0 bytes.toList).run file with
      | .ok () file => pure (volume.absorb file)
      | .error cause _ => throw cause
    pure (placed.toOption.getD volume)

def save (before after : Volume) (path : String) : IO Unit := do
  match after.regular? path with
  | none => pure ()
  | some file =>
    let bytes := file.toBytes
    if (before.regular? path).map SparseFile.toBytes != some bytes then
      IO.FS.writeBinFile path bytes.toByteArray

def withLock (config : Config) (action : Bool → IO α) : IO α := do
  match ← (IO.FS.Handle.mk config.pagePath .read).toBaseIO with
  | .error _ => action true
  | .ok handle =>
    let exclusive := config.mode.isWritable
    match config.lock with
    | .fail => action (← handle.tryLock exclusive)
    | .block =>
      handle.lock exclusive
      action true

/-- The host on which a store is opened. A page file that another program has locked is
locked there too. -/
def host (volume : Volume) (config : Config) (granted : Bool) : Host :=
  let locks :=
    match granted, volume.resolve config.pagePath with
    | false, .ok ⟨_, some inode⟩ => [⟨0, inode, .exclusive⟩]
    | _, _ => []
  { (default : Host) with volume, locks, nextOwner := 1 }

def run (invocation : CommandLine.Invocation) : IO CommandLine.Report := do
  let config := invocation.config
  if config.mode.creates && !config.path.isEmpty then
    touch config.directoryPath
    touch config.pagePath
  withLock config fun granted => do
    let before ← load (← load default config.directoryPath) config.pagePath
    let (report, after) := invocation.run (host before config granted)
    save before after.volume config.directoryPath
    save before after.volume config.pagePath
    pure report

end PageTrie.Disk

open PageTrie in
def main (arguments : List String) : IO UInt32 := do
  match CommandLine.parse arguments with
  | .run invocation =>
    let report ← Disk.run invocation
    IO.print report.out
    IO.eprint report.err
    for record in report.log do
      IO.println record
    pure (UInt32.ofNat report.status)
  | .version =>
    IO.print CommandLine.versionLine
    pure 0
  | .help =>
    IO.print CommandLine.usage
    pure 0
  | .refused =>
    IO.eprint CommandLine.usage
    pure 2

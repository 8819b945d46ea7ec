/-
The system that a program is run on: the directories, devices and links that are
there whatever files it is given.
-/
import Horn.Files

namespace Horn

namespace System

/-- What a program in machine code starts with.  It is no text. -/
def machineCode : ByteArray := ⟨#[0x7F, 0x45, 0x4C, 0x46, 0xFF]⟩

/-- A small installation, with the working directory three steps below the root.
Of the bytes that have no end, and of contents that are not known, a start stands for
all that decides how they are read: a byte that cannot start a value or a word. -/
def installed : System where
  depth := 3
  directories :=
    ["/boot", "/dev", "/dev/pts", "/dev/shm", "/etc", "/home", "/media", "/mnt", "/opt", "/proc",
      "/proc/self", "/proc/self/fd", "/root", "/run", "/run/lock", "/srv", "/sys", "/tmp", "/usr",
      "/usr/bin", "/usr/games", "/usr/include", "/usr/lib", "/usr/lib64", "/usr/local",
      "/usr/local/bin", "/usr/local/etc", "/usr/local/games", "/usr/local/include",
      "/usr/local/lib", "/usr/local/sbin", "/usr/local/share", "/usr/local/src", "/usr/sbin",
      "/usr/share", "/usr/src", "/var", "/var/backups", "/var/cache", "/var/lib", "/var/local",
      "/var/log", "/var/mail", "/var/opt", "/var/spool", "/var/tmp"].map pathParts
  devices :=
    [(pathParts "/dev/null", .null), (pathParts "/dev/full", .full),
      (pathParts "/dev/zero", .endless), (pathParts "/dev/random", .endless),
      (pathParts "/dev/urandom", .endless),
      (pathParts "/proc/self/fd/0", .input), (pathParts "/proc/self/fd/1", .output),
      (pathParts "/proc/self/fd/2", .errors)]
  links :=
    [(pathParts "/dev/fd", pathParts "/proc/self/fd"),
      (pathParts "/dev/stdin", pathParts "/proc/self/fd/0"),
      (pathParts "/dev/stdout", pathParts "/proc/self/fd/1"),
      (pathParts "/dev/stderr", pathParts "/proc/self/fd/2"),
      (pathParts "/proc/self/cwd", []), (pathParts "/proc/self/root", Location.root),
      (pathParts "/bin", pathParts "/usr/bin"), (pathParts "/lib", pathParts "/usr/lib"),
      (pathParts "/lib64", pathParts "/usr/lib64"), (pathParts "/sbin", pathParts "/usr/sbin"),
      (pathParts "/var/lock", pathParts "/run/lock"), (pathParts "/var/run", pathParts "/run")]
  files :=
    [(pathParts "/etc/passwd", "root:x:0:0:root:/root:/bin/bash\n".toUTF8),
      (pathParts "/usr/bin/env", machineCode), (pathParts "/usr/bin/sh", machineCode)]
  gives
    | .endless | .full => ⟨#[0]⟩
    | .null | .input | .output | .errors => ByteArray.empty
  denies _ _ := none
  breaks _ := none

end System

/-- Some files by their paths, where a program is run. -/
def Files.ofList (entries : List (String × ByteArray)) : Files :=
  Files.ofEntries .installed entries

example : System.installed.follow (pathParts "/dev/stdin") = pathParts "/proc/self/fd/0" ∧
    ((Files.ofList []).target "/usr/../dev/stdout").toOption = some (.device .output) := by
  decide +kernel

end Horn

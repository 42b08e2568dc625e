import MantleOS.Checked
import MantleOS.Nesting
import MantleOS.Bytes
import MantleOS.Rootfs
import MantleOS.RootfsWalk
import MantleOS.RootfsLaws
import MantleOS.RootfsList
import MantleOS.RootfsBuild
import MantleOS.UserSpace
import MantleOS.Elf
import MantleOS.ElfLoad
import MantleOS.ElfLaws
import MantleOS.PageWalk
import MantleOS.BootTables
import MantleOS.Multiboot
import MantleOS.Loader
import MantleOS.KernelLoad
import MantleOS.Fat16
import MantleOS.MakeEsp
import MantleOS.Ring3
import MantleOS.Syscall
import MantleOS.SyscallSpecs
import MantleOS.SyscallLaws
import MantleOS.CallResults
import MantleOS.Terminal
import MantleOS.Descriptors
import MantleOS.ExecLaws
import MantleOS.CText
import MantleOS.Script
import MantleOS.ScriptPass
import MantleOS.ScriptHalts
import MantleOS.ScriptSteps
import MantleOS.ScriptTrace
import MantleOS.ScriptLockstep
import MantleOS.ScriptGuards
import MantleOS.ScriptGrammar
import MantleOS.ScriptMeaning
import MantleOS.ScriptErrors
import MantleOS.Package
import MantleOS.PackageLaws
import MantleOS.Disk
import MantleOS.Install
import MantleOS.Transaction
import MantleOS.InstallLaws
import MantleOS.PackageNames
import MantleOS.CriticalFiles
import MantleOS.PackageRuns
import MantleOS.ShellState
import MantleOS.ElfResult
import MantleOS.BootTags
import MantleOS.Framebuffer
import MantleOS.Splash
import MantleOS.Shell
import MantleOS.ShellRuns
import MantleOS.Interpolate
import MantleOS.ScriptVars
import MantleOS.ScriptExit
import MantleOS.ScriptTokens
import MantleOS.ShellBuffers
import MantleOS.ShellSyntax
import MantleOS.Command
import MantleOS.Network
import MantleOS.Cmdline
import MantleOS.CrossFade
import MantleOS.FileTable
import MantleOS.Pipes
import MantleOS.Pipeline
import MantleOS.PipelineLaws
import MantleOS.PipelineRuns
import MantleOS.Runs
import MantleOS.Supervise
import MantleOS.SuperviseLaws
import MantleOS.Logd
import MantleOS.Regions
import MantleOS.KernelPlaced
import MantleOS.EfiMain
import MantleOS.EfiJump
import MantleOS.KernelMain
import MantleOS.UserCalls
import MantleOS.UserRuns
import MantleOS.UserShell
import MantleOS.UserShellLaws
import MantleOS.UserSession
import MantleOS.Userland

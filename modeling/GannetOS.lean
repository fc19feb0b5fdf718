import GannetOS.Filesys.IoErrors
import GannetOS.Filesys.Subtree
import GannetOS.Filesys.Refine
import GannetOS.Proc.UserPtr
import GannetOS.Proc.Argv
import GannetOS.Shell.Screen
import GannetOS.Shell.PathBuffer
import GannetOS.Shell.ForLoop
import GannetOS.Shell.Stages
import GannetOS.Shell.SplitArgs
import GannetOS.Net.ChecksumLaws
import GannetOS.Net.Dns
import GannetOS.Net.ArpCache
import GannetOS.Net.TcpIdentity
import GannetOS.Net.TcpTeardown
import GannetOS.Net.TcpSend
import GannetOS.Net.Ethernet
import GannetOS.Ui.Clip
import GannetOS.Ui.TerminalBounds
import GannetOS.Tools.Mkpexe
import GannetOS.Tools.ReadBack
